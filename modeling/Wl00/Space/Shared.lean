import Wl00.Lib.Transition
import Wl00.Space.Boot

/-!
# The allocator on several harts

`kalloc` and `kfree` of `kernel/mem.c` once more, now step by step and on any number of
harts: `kfree` clears the page byte by byte before it takes `mem_lock`, and `kalloc`
looks through the bitmap with `mem_lock` held.  `lock` and `unlock` are single steps here;
what happens inside of them is the subject of `Wl00.Spinlock`.

Between its calls a hart, which here may be any thread of control, may write to the pages it
owns and hand them to others.  Who owns a page is a history variable: `kalloc` makes its
caller the owner, and `kfree`, which is called by owners only, makes it nobody's again.

* `free_pages_zero` — free pages hold zeros, so that `kalloc` returns zeros, and of two
  runs that store different bytes in pages that are freed later nobody can tell which one
  it is in.
-/

namespace Wl00.Pages

open Vm Prog

/-- Where a hart is in the allocator. -/
inductive Pc where
  /-- Outside of it. -/
  | prog
  /-- `kfree`: `memset` is at byte `i` -/
  | clear (pa i : Nat)
  /-- `kfree`: `lock(&mem_lock)` -/
  | freeLock (pa : Nat)
  /-- `kfree`: `if (mem_bitmap[i])` -/
  | freeCheck (pa : Nat)
  /-- `kfree`: `mem_bitmap[i] = 1` -/
  | freeSet (pa : Nat)
  /-- `kfree`: `unlock(&mem_lock)` -/
  | freeUnlock
  /-- `kfree`: `unlock(&mem_lock)` before the panic -/
  | doubleUnlock
  /-- `kalloc`: `lock(&mem_lock)` -/
  | allocLock
  /-- `kalloc`: the loop is at page `i` -/
  | allocScan (i : Nat)
  /-- `kalloc`: `mem_bitmap[i] = 0` -/
  | allocTake (i : Nat)
  /-- `kalloc`: `unlock(&mem_lock)` -/
  | allocUnlock (addr : Nat)
  /-- `kalloc` returns -/
  | allocRet (addr : Nat)
  | panic (e : Panic)

/-- What a hart does next. -/
inductive Act (Hart : Type) where
  | write (x : Nat) (b : UInt8)
  | kfree (pa : Nat)
  | kalloc
  /-- Page `u` goes to hart `h`. -/
  | give (u : Nat) (h : Hart)
  /-- The next step of the call the hart is in. -/
  | go

structure State (Hart : Type) where
  bytes : Bytes
  bitmap : Nat → Bool
  memLock : Option Hart
  pc : Hart → Pc
  owner : Nat → Option Hart

section Model

variable {Hart : Type} [DecidableEq Hart]

namespace State

def setPc (s : State Hart) (h : Hart) (k : Pc) : State Hart :=
  { s with pc := Function.update s.pc h k }

/-- Page `u` is free; RAM starts at page `0x80000`. -/
def Free (s : State Hart) (u : Nat) : Prop := ∃ i, u = 0x80000 + i ∧ s.bitmap i = true

end State

/-- The next step of the call hart `h` is in. -/
def go (s : State Hart) (h : Hart) : Option (State Hart) :=
  match s.pc h with
  | .prog | .panic _ => none
  | .clear pa i =>
      if i < PAGE_SIZE then
        some ({ s with bytes := Function.update s.bytes (pa + i) 0 }.setPc h (.clear pa (i + 1)))
      else some (s.setPc h (.freeLock pa))
  | .freeLock pa =>
      match s.memLock with
      | none => some ({ s with memLock := some h }.setPc h (.freeCheck pa))
      | some _ => none
  | .freeCheck pa =>
      if s.bitmap (pageIdx pa) then some (s.setPc h .doubleUnlock)
      else some (s.setPc h (.freeSet pa))
  | .freeSet pa =>
      some ({ s with
        bitmap := Function.update s.bitmap (pageIdx pa) true
        owner := Function.update s.owner (pa / PAGE_SIZE) none }.setPc h .freeUnlock)
  | .freeUnlock => some ({ s with memLock := none }.setPc h .prog)
  | .doubleUnlock => some ({ s with memLock := none }.setPc h (.panic .kfreeDouble))
  | .allocLock =>
      match s.memLock with
      | none => some ({ s with memLock := some h }.setPc h (.allocScan 0))
      | some _ => none
  | .allocScan i =>
      if i < NUM_PAGES then
        if s.bitmap i then some (s.setPc h (.allocTake i)) else some (s.setPc h (.allocScan (i + 1)))
      else some (s.setPc h (.allocUnlock 0))
  | .allocTake i =>
      some ({ s with
        bitmap := Function.update s.bitmap i false
        owner := Function.update s.owner (0x80000 + i) (some h) }.setPc h
          (.allocUnlock (MEM_START + i * PAGE_SIZE)))
  | .allocUnlock addr => some ({ s with memLock := none }.setPc h (.allocRet addr))
  | .allocRet _ => some (s.setPc h .prog)

/-- One step of hart `h`. -/
def next (L : Layout) (s : State Hart) (h : Hart) : Act Hart → Option (State Hart)
  | .go => go s h
  | .write x b =>
      match s.pc h with
      | .prog =>
          if s.owner (x / PAGE_SIZE) = some h then
            some { s with bytes := Function.update s.bytes x b }
          else none
      | _ => none
  | .kfree pa =>
      match s.pc h with
      | .prog =>
          if s.owner (pa / PAGE_SIZE) = some h then
            if pa % PAGE_SIZE ≠ 0 then some (s.setPc h (.panic .kfreeAlign))
            else if pa < L.startPage ∨ MEM_END ≤ pa then some (s.setPc h (.panic .kfreeRange))
            else some (s.setPc h (.clear pa 0))
          else none
      | _ => none
  | .kalloc =>
      match s.pc h with
      | .prog => some (s.setPc h .allocLock)
      | _ => none
  | .give u h' =>
      match s.pc h with
      | .prog =>
          if s.owner u = some h then some { s with owner := Function.update s.owner u (some h') }
          else none
      | _ => none

/-- The harts after `init_bitmap`, whatever was in memory before it. -/
def system (L : Layout) (Hart : Type) [DecidableEq Hart] : Lts (State Hart) (Hart × Act Hart) :=
  .ofNext
    (fun s => ∃ bytes m, initBitmap (.blank L bytes) = .ok ((), m) ∧ s.bytes = m.bytes ∧
      s.bitmap = m.bitmap ∧ s.memLock = none ∧ (∀ h, s.pc h = .prog) ∧ ∀ u, s.owner u = none)
    (fun s a => next L s a.1 a.2)

end Model

/-! ## The invariant -/

namespace Pc

/-- `mem_lock` is held here. -/
def InLock : Pc → Prop
  | .freeCheck _ | .freeSet _ | .freeUnlock | .doubleUnlock | .allocScan _ | .allocTake _
  | .allocUnlock _ => True
  | _ => False

variable {Hart : Type}

/-- What hart `h` knows at this point: the page it frees is its own and cleared as far as
`memset` has come, and the page it allocates is cleared. -/
def Ok (s : State Hart) (h : Hart) : Pc → Prop
  | .clear pa i => ∃ u, pa = u * 4096 ∧ s.owner u = some h ∧ i ≤ 4096 ∧
      ∀ o < i, s.bytes (u * 4096 + o) = 0
  | .freeLock pa | .freeCheck pa | .freeSet pa =>
      ∃ u, pa = u * 4096 ∧ s.owner u = some h ∧ Zeroed s.bytes u
  | .allocTake i => s.bitmap i = true
  | .allocUnlock addr | .allocRet addr =>
      addr ≠ 0 → ∃ u, addr = u * 4096 ∧ s.owner u = some h ∧ Zeroed s.bytes u
  | .doubleUnlock => False
  | .panic e => e = .kfreeAlign
  | .prog | .freeUnlock | .allocLock | .allocScan _ => True

/-- It knows so as long as its pages are left alone. -/
theorem Ok.frame {s s' : State Hart} {h : Hart} {k : Pc} (hk : k.Ok s h)
    (ho : ∀ u, s.owner u = some h → s'.owner u = some h ∧ SamePage s.bytes s'.bytes u)
    (hb : ∀ i, k = .allocTake i → s.bitmap i = true → s'.bitmap i = true) : k.Ok s' h := by
  cases k with
  | clear pa i =>
      obtain ⟨u, hu, hown, hi, hz⟩ := hk
      refine ⟨u, hu, (ho u hown).1, hi, fun o hlt => ?_⟩
      rw [(ho u hown).2 o (by omega), hz o hlt]
  | freeLock pa | freeCheck pa | freeSet pa =>
      obtain ⟨u, hu, hown, hz⟩ := hk
      exact ⟨u, hu, (ho u hown).1, hz.congr (ho u hown).2⟩
  | allocUnlock addr | allocRet addr =>
      intro hne
      obtain ⟨u, hu, hown, hz⟩ := hk hne
      exact ⟨u, hu, (ho u hown).1, hz.congr (ho u hown).2⟩
  | allocTake i => exact hb i rfl hk
  | _ => exact hk

end Pc

/-- What every interleaving keeps. -/
structure Inv (L : Layout) {Hart : Type} (s : State Hart) : Prop where
  lock : ∀ h, (s.pc h).InLock ↔ s.memLock = some h
  free : ∀ u, s.Free u → InRange L u ∧ s.owner u = none ∧ Zeroed s.bytes u
  own : ∀ u h, s.owner u = some h → InRange L u
  ok : ∀ h, (s.pc h).Ok s h

/-! The lock is held by the hart that is between `lock` and `unlock`. -/

section Lock

variable {Hart : Type} [DecidableEq Hart] {s s' : State Hart} {h : Hart} {k : Pc}

theorem lock_step (hl : ∀ h, (s.pc h).InLock ↔ s.memLock = some h)
    (hpc : s'.pc = Function.update s.pc h k)
    (hlock : ∀ h', s'.memLock = some h' ↔ if h' = h then k.InLock else s.memLock = some h') :
    ∀ h, (s'.pc h).InLock ↔ s'.memLock = some h := by
  intro h'
  rw [hlock, hpc]
  by_cases hh : h' = h
  · rw [hh, Function.update_self, if_pos rfl]
  · rw [Function.update_of_ne hh, if_neg hh, hl]

theorem lock_kept (hl : ∀ h, (s.pc h).InLock ↔ s.memLock = some h)
    (hk : k.InLock ↔ (s.pc h).InLock) :
    ∀ h', s.memLock = some h' ↔ if h' = h then k.InLock else s.memLock = some h' := by
  intro h'
  split_ifs with hh
  · rw [hh, hk, hl]
  · rfl

theorem lock_acquired (hn : s.memLock = none) (hk : k.InLock) :
    ∀ h', some h = some h' ↔ if h' = h then k.InLock else s.memLock = some h' := by
  intro h'
  by_cases hh : h' = h
  · simp [hh, hk]
  · simp [hh, hn, Ne.symm hh]

theorem lock_released (hl : ∀ h, (s.pc h).InLock ↔ s.memLock = some h) (hp : (s.pc h).InLock)
    (hk : ¬k.InLock) :
    ∀ h', none = some h' ↔ if h' = h then k.InLock else s.memLock = some h' := by
  intro h'
  by_cases hh : h' = h
  · simp [hh, hk]
  · simp [hh, (hl h).1 hp, Ne.symm hh]

end Lock

namespace Inv

variable {L : Layout} {Hart : Type} [DecidableEq Hart] {s s' : State Hart} {h : Hart}

/-- A step of hart `h` to `k` that leaves the pages of the other harts alone. -/
theorem step (hi : Inv L s) {k : Pc} (hpc : s'.pc = Function.update s.pc h k)
    (hlock : ∀ h', s'.memLock = some h' ↔ if h' = h then k.InLock else s.memLock = some h')
    (hfree : ∀ u, s'.Free u → InRange L u ∧ s'.owner u = none ∧ Zeroed s'.bytes u)
    (hown : ∀ u h', s'.owner u = some h' → InRange L u)
    (hother : ∀ h' u, h' ≠ h → s.owner u = some h' → s'.owner u = some h' ∧
      SamePage s.bytes s'.bytes u)
    (hbit : ∀ h' i, h' ≠ h → s.pc h' = .allocTake i → s.bitmap i = true → s'.bitmap i = true)
    (hk : k.Ok s' h) : Inv L s' := by
  refine ⟨lock_step hi.lock hpc hlock, hfree, hown, fun h' => ?_⟩
  rw [hpc]
  by_cases hh : h' = h
  · rw [hh, Function.update_self]
    exact hk
  · rw [Function.update_of_ne hh]
    exact (hi.ok h').frame (fun u => hother h' u hh) fun i => hbit h' i hh

/-- Nobody's bytes or pages change. -/
theorem quiet (hi : Inv L s) {k : Pc} {o : Option Hart}
    (ho : ∀ h', o = some h' ↔ if h' = h then k.InLock else s.memLock = some h') (hk : k.Ok s h) :
    Inv L ({ s with memLock := o }.setPc h k) :=
  hi.step rfl ho hi.free hi.own (fun _ _ _ hu => ⟨hu, fun _ _ => rfl⟩) (fun _ _ _ _ => id)
    (hk.frame (fun _ hu => ⟨hu, fun _ _ => rfl⟩) fun _ _ => id)

theorem setPc (hi : Inv L s) {k : Pc} (hl : k.InLock ↔ (s.pc h).InLock) (hk : k.Ok s h) :
    Inv L (s.setPc h k) :=
  hi.quiet (lock_kept hi.lock hl) hk

theorem acquire (hi : Inv L s) {k : Pc} (hn : s.memLock = none) (hl : k.InLock) (hk : k.Ok s h) :
    Inv L ({ s with memLock := some h }.setPc h k) :=
  hi.quiet (lock_acquired hn hl) hk

theorem release (hi : Inv L s) {k : Pc} (hp : (s.pc h).InLock) (hl : ¬k.InLock) (hk : k.Ok s h) :
    Inv L ({ s with memLock := none }.setPc h k) :=
  hi.quiet (lock_released hi.lock hp hl) hk

theorem samePage_update {m : Bytes} {x u : Nat} {b : UInt8} (hx : x / 4096 ≠ u) :
    SamePage m (Function.update m x b) u := by
  intro o ho
  exact Function.update_of_ne (by omega) _ _

/-- A store to a page of one's own. -/
theorem store (hi : Inv L s) {k : Pc} {x : Nat} {b : UInt8} (hx : s.owner (x / 4096) = some h)
    (hl : k.InLock ↔ (s.pc h).InLock)
    (hk : k.Ok { s with bytes := Function.update s.bytes x b } h) :
    Inv L ({ s with bytes := Function.update s.bytes x b }.setPc h k) := by
  have hsame : ∀ u, s.owner u ≠ some h → SamePage s.bytes (Function.update s.bytes x b) u :=
    fun u hu => samePage_update fun he => hu (he ▸ hx)
  refine hi.step rfl (lock_kept (s := s) hi.lock hl) (fun u hu => ?_) hi.own
    (fun h' u hh hu => ⟨hu, hsame u ?_⟩) (fun _ _ _ _ => id)
    (hk.frame (fun _ hu => ⟨hu, fun _ _ => rfl⟩) fun _ _ => id)
  · obtain ⟨hr, ho, hz⟩ := hi.free u hu
    exact ⟨hr, ho, hz.congr (hsame u (by simp [ho]))⟩
  · rw [hu]
    exact fun he => hh (Option.some.inj he)

/-- Page `u`, which is of no other hart, changes hands. -/
theorem setOwner (hi : Inv L s) {k : Pc} {u : Nat} {o : Option Hart} (hr : InRange L u)
    (hu : ∀ h', h' ≠ h → s.owner u ≠ some h') (hpc : s'.pc = Function.update s.pc h k)
    (hlock : ∀ h', s'.memLock = some h' ↔ if h' = h then k.InLock else s.memLock = some h')
    (hown : s'.owner = Function.update s.owner u o) (hbytes : s'.bytes = s.bytes)
    (hfree : ∀ q, s'.Free q → if q = u then o = none ∧ Zeroed s.bytes u else s.Free q)
    (hbit : ∀ h' i, h' ≠ h → s.pc h' = .allocTake i → s.bitmap i = true → s'.bitmap i = true)
    (hk : k.Ok s' h) : Inv L s' := by
  refine hi.step hpc hlock (fun q hq => ?_) (fun q h' hq => ?_) (fun h' q hh hq => ?_) hbit hk
  · have hq' := hfree q hq
    rw [hown, hbytes]
    by_cases hqu : q = u
    · rw [if_pos hqu] at hq'
      rw [hqu, Function.update_self]
      exact ⟨hr, hq'⟩
    · rw [if_neg hqu] at hq'
      rw [Function.update_of_ne hqu]
      exact hi.free q hq'
  · rw [hown] at hq
    by_cases hqu : q = u
    · rw [hqu]
      exact hr
    · rw [Function.update_of_ne hqu] at hq
      exact hi.own q h' hq
  · have hqu : q ≠ u := by
      rintro rfl
      exact hu h' hh hq
    rw [hown, hbytes, Function.update_of_ne hqu]
    exact ⟨hq, fun _ _ => rfl⟩

/-- `kfree` marks its page as free. -/
theorem publish (hi : Inv L s) {u : Nat} (hp : s.pc h = .freeSet (u * 4096)) :
    Inv L ({ s with
      bitmap := Function.update s.bitmap (pageIdx (u * 4096)) true
      owner := Function.update s.owner (u * 4096 / PAGE_SIZE) none }.setPc h .freeUnlock) := by
  have hok := hi.ok h
  rw [hp] at hok
  obtain ⟨u', hu', hown, hz⟩ := hok
  obtain rfl : u = u' := by omega
  have hr := hi.own u h hown
  have hlt := hr.lt
  have hdiv : u * 4096 / PAGE_SIZE = u := by simp only [PAGE_SIZE]; omega
  obtain ⟨j, hj⟩ : ∃ j, u - 0x80000 = j := ⟨_, rfl⟩
  rw [hdiv, pageIdx_page, hj]
  refine hi.setOwner hr (fun h' hh hq => ?_) rfl (lock_kept (s := s) hi.lock (by rw [hp]; rfl)) rfl
    rfl (fun q hq => ?_) (fun h' i _ _ hb => ?_) trivial
  · rw [hown] at hq
    exact hh (Option.some.inj hq).symm
  · split_ifs with hqu
    · exact ⟨rfl, hz⟩
    · obtain ⟨i, hqi, hb⟩ := hq
      have hne : i ≠ j := by omega
      exact ⟨i, hqi, (Function.update_of_ne hne _ _).symm.trans hb⟩
  · by_cases hij : i = j
    · rw [hij]
      exact Function.update_self ..
    · exact (Function.update_of_ne hij _ _).trans hb

/-- `kalloc` takes a free page. -/
theorem take (hi : Inv L s) {i : Nat} (hp : s.pc h = .allocTake i) :
    Inv L ({ s with
      bitmap := Function.update s.bitmap i false
      owner := Function.update s.owner (0x80000 + i) (some h) }.setPc h
        (.allocUnlock (MEM_START + i * PAGE_SIZE))) := by
  have hb := hi.ok h
  rw [hp] at hb
  obtain ⟨u, hu⟩ : ∃ u, u = 0x80000 + i := ⟨_, rfl⟩
  obtain ⟨hr, hnone, hz⟩ := hi.free u ⟨i, hu, hb⟩
  have hin : (s.pc h).InLock := by rw [hp]; trivial
  rw [← hu]
  refine hi.setOwner hr (fun h' _ hq => ?_) rfl (lock_kept (s := s) hi.lock (by rw [hp]; rfl)) rfl
    rfl (fun q hq => ?_) (fun h' j hh hj _ => ?_) fun _ => ?_
  · rw [hnone] at hq
    cases hq
  · obtain ⟨j, hqj, hbj⟩ := hq
    have hji : j ≠ i := by
      rintro rfl
      exact absurd ((Function.update_self ..).symm.trans hbj) (by decide)
    rw [if_neg (by omega)]
    exact ⟨j, hqj, (Function.update_of_ne hji _ _).symm.trans hbj⟩
  · -- only one hart holds `mem_lock`
    have h1 := (hi.lock h').1 (by rw [hj]; trivial)
    rw [(hi.lock h).1 hin] at h1
    exact absurd (Option.some.inj h1).symm hh
  · refine ⟨u, ?_, Function.update_self .., hz⟩
    simp only [MEM_START, PAGE_SIZE]
    omega

theorem give (hi : Inv L s) {u : Nat} (h' : Hart) (hu : s.owner u = some h) (hp : s.pc h = .prog) :
    Inv L { s with owner := Function.update s.owner u (some h') } := by
  have hpc : s.pc = Function.update s.pc h .prog := by
    rw [← hp, Function.update_eq_self]
  refine hi.setOwner (h := h) (k := .prog) (hi.own u h hu) (fun h₁ hh hq => ?_) hpc
    (lock_kept (s := s) hi.lock (by rw [hp])) rfl rfl (fun q hq => ?_) (fun _ _ _ _ => id) trivial
  · rw [hu] at hq
    exact hh (Option.some.inj hq).symm
  · have hqu : q ≠ u := by
      rintro rfl
      have hnone := (hi.free q hq).2.1
      rw [hu] at hnone
      cases hnone
    rw [if_neg hqu]
    exact hq

omit [DecidableEq Hart] in
/-- An owned page is not free. -/
theorem not_free_of_owner (hi : Inv L s) {u : Nat} (hown : s.owner u = some h) :
    ¬s.bitmap (pageIdx (u * 4096)) = true := by
  have hr := (hi.own u h hown).lt
  rw [pageIdx_page]
  intro hb
  have hnone := (hi.free u ⟨_, by omega, hb⟩).2.1
  rw [hown] at hnone
  cases hnone

theorem go (hi : Inv L s) (hg : Pages.go s h = some s') : Inv L s' := by
  have hok := hi.ok h
  unfold Pages.go at hg
  cases hp : s.pc h <;> rw [hp] at hg hok <;> dsimp only at hg
  case prog | panic => cases hg
  case clear pa i =>
    obtain ⟨u, rfl, hown, hle, hz⟩ := hok
    split at hg <;> cases hg
    · next hlt =>
      have hdiv : (u * 4096 + i) / 4096 = u := by simp only [PAGE_SIZE] at hlt; omega
      refine hi.store (by rw [hdiv]; exact hown) (by rw [hp]; rfl) ⟨u, rfl, hown, hlt, fun o ho => ?_⟩
      by_cases hoi : o = i
      · rw [hoi]
        exact Function.update_self ..
      · exact (Function.update_of_ne (by omega) _ _).trans (hz o (by omega))
    · next hlt =>
      simp only [PAGE_SIZE] at hlt
      exact hi.setPc (by rw [hp]; rfl) ⟨u, rfl, hown, fun o ho => hz o (by omega)⟩
  case freeLock pa =>
    cases hm : s.memLock <;> rw [hm] at hg <;> cases hg
    exact hi.acquire hm trivial hok
  case freeCheck pa =>
    obtain ⟨u, rfl, hown, hz⟩ := hok
    rw [if_neg (hi.not_free_of_owner hown)] at hg
    cases hg
    exact hi.setPc (by rw [hp]; rfl) ⟨u, rfl, hown, hz⟩
  case freeSet pa =>
    obtain ⟨u, rfl, -, -⟩ := hok
    cases hg
    exact hi.publish hp
  case freeUnlock => cases hg; exact hi.release (by rw [hp]; trivial) id trivial
  case doubleUnlock => exact hok.elim
  case allocLock =>
    cases hm : s.memLock <;> rw [hm] at hg <;> cases hg
    exact hi.acquire hm trivial trivial
  case allocScan i =>
    split_ifs at hg with hlt hb <;> cases hg
    · exact hi.setPc (by rw [hp]; rfl) hb
    · exact hi.setPc (by rw [hp]; rfl) trivial
    · exact hi.setPc (by rw [hp]; rfl) fun hne => absurd rfl hne
  case allocTake i => cases hg; exact hi.take hp
  case allocUnlock addr => cases hg; exact hi.release (by rw [hp]; trivial) id hok
  case allocRet addr => cases hg; exact hi.setPc (by rw [hp]; rfl) trivial

theorem next (hi : Inv L s) {a : Act Hart} (hn : Pages.next L s h a = some s') : Inv L s' := by
  cases a with
  | go => exact hi.go hn
  | write x b =>
      simp only [Pages.next] at hn
      split at hn
      · next hp =>
        split_ifs at hn with hx
        cases hn
        have hst := hi.store (k := .prog) (b := b) hx (by rw [hp]) trivial
        rwa [State.setPc, ← hp, Function.update_eq_self] at hst
      · cases hn
  | kfree pa =>
      simp only [Pages.next] at hn
      split at hn
      · next hp =>
        split_ifs at hn with hx h1 h2 <;> cases hn
        · exact hi.setPc (by rw [hp]; rfl) rfl
        · -- an owned page is in range
          have hr := hi.own _ h hx
          unfold InRange at hr
          simp only [PAGE_SIZE, MEM_END] at h1 h2 hr
          omega
        · simp only [PAGE_SIZE] at h1 hx
          refine hi.setPc (by rw [hp]; rfl) ⟨pa / 4096, by omega, hx, by omega, fun o ho => ?_⟩
          omega
      · cases hn
  | kalloc =>
      simp only [Pages.next] at hn
      split at hn <;> cases hn
      next hp => exact hi.setPc (by rw [hp]; rfl) trivial
  | give u h' =>
      simp only [Pages.next] at hn
      split at hn
      · next hp =>
        split_ifs at hn with hu
        cases hn
        exact hi.give h' hu hp
      · cases hn

end Inv

section Runs

variable {L : Layout} {Hart : Type} [DecidableEq Hart] {s s' : State Hart}

theorem inv_init (h0 : (system L Hart).init s) : Inv L s := by
  obtain ⟨bytes, m, hrun, hbytes, hbitmap, hlock, hpc, hown⟩ := h0
  obtain ⟨hfree, hzero⟩ := (initBitmap_spec (L := L) bytes).of_run hrun
  refine ⟨fun h => ?_, fun u hu => ?_, fun u h hu => ?_, fun h => ?_⟩
  · rw [hpc, hlock]
    exact ⟨False.elim, fun he => by cases he⟩
  · obtain ⟨i, rfl, hb⟩ := hu
    have hr : InRange L (0x80000 + i) := by
      refine (hfree _).1 ⟨by omega, ?_⟩
      rw [← hbitmap, Nat.add_sub_cancel_left]
      exact hb
    refine ⟨hr, hown _, ?_⟩
    rw [hbytes]
    exact hzero _ hr
  · rw [hown] at hu
    cases hu
  · rw [hpc]
    trivial

theorem inv_reachable (hr : (system L Hart).Reachable s) : Inv L s :=
  hr.invariant (fun _ => inv_init) fun _ _ _ _ hi hn => hi.next hn

/-! ## Two runs -/

/-- The byte that a step stores. -/
def stored (k : Pc) : Act Hart → Option (Nat × UInt8)
  | .write x b => some (x, b)
  | .go =>
      match k with
      | .clear pa i => if i < PAGE_SIZE then some (pa + i, 0) else none
      | _ => none
  | _ => none

def storeByte (m : Bytes) : Option (Nat × UInt8) → Bytes
  | some (x, b) => Function.update m x b
  | none => m

/-- What else a step does does not depend on the bytes in memory. -/
theorem next_bytes (L : Layout) (s : State Hart) (m : Bytes) (h : Hart) (a : Act Hart) :
    next L { s with bytes := m } h a =
      (next L s h a).map fun t => { t with bytes := storeByte m (stored (s.pc h) a) } := by
  cases a with
  | go =>
      simp only [next, go]
      cases hp : s.pc h <;> simp only [stored]
      case freeLock | allocLock => cases s.memLock <;> rfl
      all_goals (try split_ifs) <;> rfl
  | write x b | give u h' =>
      simp only [next]
      cases s.pc h
      case prog => dsimp only; split_ifs <;> rfl
      all_goals rfl
  | kfree pa =>
      simp only [next]
      cases s.pc h
      case prog => dsimp only; split_ifs <;> rfl
      all_goals rfl
  | kalloc =>
      simp only [next]
      cases s.pc h <;> rfl

/-- Two runs with the same schedule.  Where one of them stores a byte, the other may store
another byte; `D` are the pages in which this has happened since they were free. -/
inductive Twin (L : Layout) : State Hart → State Hart → Set Nat → Prop
  | start {s s' : State Hart} : (system L Hart).init s → (system L Hart).init s' → Twin L s s' ∅
  | step {s s' t t' : State Hart} {D : Set Nat} (h : Hart) (a : Act Hart) : Twin L s s' D →
      next L s h a = some t → next L s' h a = some t' → Twin L t t' {u ∈ D | ¬t.Free u}
  | write {s s' t t' : State Hart} {D : Set Nat} (h : Hart) (x : Nat) (b b' : UInt8) :
      Twin L s s' D → next L s h (.write x b) = some t → next L s' h (.write x b') = some t' →
      Twin L t t' (insert (x / PAGE_SIZE) D)

/-- The two runs agree on everything but the bytes of the pages `D`. -/
structure Agree (L : Layout) (s s' : State Hart) (D : Set Nat) : Prop where
  control : s' = { s with bytes := s'.bytes }
  bytes : ∀ u, InRange L u → u ∉ D → SamePage s.bytes s'.bytes u

theorem Twin.reachable {D : Set Nat} (ht : Twin L s s' D) :
    (system L Hart).Reachable s ∧ (system L Hart).Reachable s' := by
  induction ht with
  | start h0 h0' => exact ⟨.start h0, .start h0'⟩
  | step h a _ hn hn' ih => exact ⟨ih.1.next (a := (h, a)) hn, ih.2.next (a := (h, a)) hn'⟩
  | write h x b b' _ hn hn' ih =>
      exact ⟨ih.1.next (a := (h, .write x b)) hn, ih.2.next (a := (h, .write x b')) hn'⟩

theorem samePage_storeByte {m m' : Bytes} {u : Nat} (hs : SamePage m m' u) (o : Option (Nat × UInt8)) :
    SamePage (storeByte m o) (storeByte m' o) u := by
  intro j hj
  cases o with
  | none => exact hs j hj
  | some w =>
      by_cases hx : u * 4096 + j = w.1
      · simp only [storeByte, hx, Function.update_self]
      · simp only [storeByte, Function.update_of_ne hx]
        exact hs j hj

theorem agree_init (h0 : (system L Hart).init s) (h0' : (system L Hart).init s') :
    Agree L s s' ∅ := by
  have hi := inv_init h0
  have hi' := inv_init h0'
  obtain ⟨bytes, m, hrun, -, hbitmap, hlock, hpc, hown⟩ := h0
  obtain ⟨bytes', m', hrun', -, hbitmap', hlock', hpc', hown'⟩ := h0'
  have hfree := ((initBitmap_spec (L := L) bytes).of_run hrun).1
  have hfree' := ((initBitmap_spec (L := L) bytes').of_run hrun').1
  have hall : ∀ u, InRange L u → s.Free u ∧ s'.Free u := by
    intro u hu
    have h1 := (hfree u).2 hu
    have h2 := (hfree' u).2 hu
    have := hu.lt
    exact ⟨⟨u - 0x80000, by omega, by rw [hbitmap]; exact h1.2⟩,
      ⟨u - 0x80000, by omega, by rw [hbitmap']; exact h2.2⟩⟩
  have hbits : s'.bitmap = s.bitmap := by
    funext i
    rw [Bool.eq_iff_iff]
    constructor
    · intro hb
      obtain ⟨j, hj, hbj⟩ := (hall _ (hi'.free _ ⟨i, rfl, hb⟩).1).1
      rwa [show i = j by omega]
    · intro hb
      obtain ⟨j, hj, hbj⟩ := (hall _ (hi.free _ ⟨i, rfl, hb⟩).1).2
      rwa [show i = j by omega]
  refine ⟨?_, fun u hu _ o ho => ?_⟩
  · have h1 : s'.pc = s.pc := funext fun h => by rw [hpc, hpc']
    have h2 : s'.owner = s.owner := funext fun u => by rw [hown, hown']
    cases s'
    simp_all
  · rw [(hi.free u (hall u hu).1).2.2 o ho, (hi'.free u (hall u hu).2).2.2 o ho]

theorem next_write {t : State Hart} {h : Hart} {x : Nat} {b : UInt8}
    (hn : next L s h (.write x b) = some t) : t = { s with bytes := Function.update s.bytes x b } := by
  simp only [next] at hn
  split at hn
  · split_ifs at hn
    exact (Option.some.inj hn).symm
  · cases hn

theorem next_write_own {h : Hart} {x : Nat} {b : UInt8} (hp : s.pc h = .prog)
    (ho : s.owner (x / PAGE_SIZE) = some h) :
    next L s h (.write x b) = some { s with bytes := Function.update s.bytes x b } := by
  simp only [next, hp]
  rw [if_pos ho]

theorem Twin.agree {D : Set Nat} (ht : Twin L s s' D) : Agree L s s' D := by
  induction ht with
  | start h0 h0' => exact agree_init h0 h0'
  | @step s s' t t' D h a hst hn hn' ih =>
      have hr := inv_reachable (hst.reachable.1.next (a := (h, a)) hn)
      have hr' := inv_reachable (hst.reachable.2.next (a := (h, a)) hn')
      have ht := next_bytes L s s.bytes h a
      rw [ih.control, next_bytes, hn] at hn'
      obtain rfl := Option.some.inj hn'
      have hb : t.bytes = storeByte s.bytes (stored (s.pc h) a) := by
        rw [show ({ s with bytes := s.bytes } : State Hart) = s from rfl, hn] at ht
        exact congrArg State.bytes (Option.some.inj ht)
      refine ⟨rfl, fun u hu hD => ?_⟩
      by_cases hfr : t.Free u
      · -- a page that is free holds zeros in both runs
        intro o ho
        rw [(hr.free u hfr).2.2 o ho]
        exact (hr'.free u hfr).2.2 o ho
      · rw [hb]
        exact samePage_storeByte (ih.bytes u hu fun hm => hD ⟨hm, hfr⟩) _
  | @write s s' t t' D h x b b' hst hn hn' ih =>
      obtain rfl := next_write hn
      obtain rfl := next_write hn'
      refine ⟨?_, fun u hu hD => ?_⟩
      · exact congrArg (fun c : State Hart => { c with bytes := Function.update s'.bytes x b' }) ih.control
      · have hne : x / 4096 ≠ u := fun he => hD (.inl he.symm)
        have hsame := ih.bytes u hu fun hm => hD (.inr hm)
        intro o ho
        dsimp only
        rw [Inv.samePage_update hne o ho, Inv.samePage_update hne o ho]
        exact hsame o ho

/-- The other run can follow. -/
theorem Twin.follow {D : Set Nat} {t : State Hart} {h : Hart} {a : Act Hart} (ht : Twin L s s' D)
    (hn : next L s h a = some t) : ∃ t', Twin L t t' {u ∈ D | ¬t.Free u} := by
  have hn' := next_bytes L s s'.bytes h a
  rw [← ht.agree.control, hn] at hn'
  exact ⟨_, ht.step h a hn hn'⟩

/-- **Free pages carry no data.**  After `init_bitmap`, whatever any number of harts do:
free pages hold zeros, and so does the page that a `kalloc` returns.  Two runs in which
the harts do the same, except that they store different bytes, agree on the allocator's
state, on who owns what, and on the bytes of every page in which the bytes stored since it
was last free are the same. -/
theorem free_pages_zero :
    (∀ s : State Hart, (system L Hart).Reachable s →
      (∀ u, s.Free u → Zeroed s.bytes u) ∧
      ∀ h addr, s.pc h = .allocRet addr → addr ≠ 0 →
        addr % PAGE_SIZE = 0 ∧ s.owner (addr / PAGE_SIZE) = some h ∧
          Zeroed s.bytes (addr / PAGE_SIZE)) ∧
    ∀ (s s' : State Hart) (D : Set Nat), Twin L s s' D →
      s'.bitmap = s.bitmap ∧ s'.pc = s.pc ∧ s'.owner = s.owner ∧
        ∀ u, (s.Free u ∨ ∃ h, s.owner u = some h) → u ∉ D → SamePage s.bytes s'.bytes u := by
  refine ⟨fun s hr => ?_, fun s s' D ht => ?_⟩
  · have hi := inv_reachable hr
    refine ⟨fun u hu => (hi.free u hu).2.2, fun h addr hp hne => ?_⟩
    have hok := hi.ok h
    rw [hp] at hok
    obtain ⟨u, rfl, hown, hz⟩ := hok hne
    simp only [PAGE_SIZE]
    rw [Nat.mul_div_cancel u (by decide)]
    exact ⟨by omega, hown, hz⟩
  · have ha := ht.agree
    have hi := inv_reachable ht.reachable.1
    have hc := ha.control
    refine ⟨by rw [hc], by rw [hc], by rw [hc], fun u hu hD => ha.bytes u ?_ hD⟩
    rcases hu with hu | ⟨h, hu⟩
    · exact (hi.free u hu).1
    · exact hi.own u h hu

/-- The loop of `kalloc` comes to a page that is free. -/
theorem Twin.scan {D : Set Nat} {h : Hart} {i j : Nat} (ht : Twin L s s' D)
    (hp : s.pc h = .allocScan i) (hb : s.bitmap j = true) (hij : i ≤ j) (hj : j < NUM_PAGES) :
    ∃ t t' D' i', Twin L t t' D' ∧ t.pc h = .allocTake i' := by
  induction hk : j - i generalizing s s' D i with
  | zero =>
      obtain rfl : i = j := by omega
      have hg : next L s h .go = some (s.setPc h (.allocTake i)) := by
        simp only [next, go, hp]
        rw [if_pos hj, if_pos hb]
      obtain ⟨t', ht'⟩ := ht.follow hg
      exact ⟨_, t', _, i, ht', Function.update_self ..⟩
  | succ k ih =>
      by_cases hbi : s.bitmap i = true
      · have hg : next L s h .go = some (s.setPc h (.allocTake i)) := by
          simp only [next, go, hp]
          rw [if_pos (by omega), if_pos hbi]
        obtain ⟨t', ht'⟩ := ht.follow hg
        exact ⟨_, t', _, i, ht', Function.update_self ..⟩
      · have hg : next L s h .go = some (s.setPc h (.allocScan (i + 1))) := by
          simp only [next, go, hp]
          rw [if_pos (by omega), if_neg hbi]
        obtain ⟨t', ht'⟩ := ht.follow hg
        exact ih ht' (Function.update_self ..) hb (by omega) (by omega)

/-- `memset` comes to the end of the page. -/
theorem Twin.memset {D : Set Nat} {h : Hart} {pa i : Nat} (ht : Twin L s s' D)
    (hp : s.pc h = .clear pa i) (hi : i ≤ PAGE_SIZE) :
    ∃ t t' D', Twin L t t' D' ∧ t.pc h = .freeLock pa ∧ t.memLock = s.memLock := by
  induction hk : PAGE_SIZE - i generalizing s s' D i with
  | zero =>
      have hg : next L s h .go = some (s.setPc h (.freeLock pa)) := by
        simp only [next, go, hp]
        rw [if_neg (by omega)]
      obtain ⟨t', ht'⟩ := ht.follow hg
      exact ⟨_, t', _, ht', Function.update_self .., rfl⟩
  | succ k ih =>
      have hg : next L s h .go =
          some ({ s with bytes := Function.update s.bytes (pa + i) 0 }.setPc h (.clear pa (i + 1))) := by
        simp only [next, go, hp]
        rw [if_pos (by omega)]
      obtain ⟨t', ht'⟩ := ht.follow hg
      obtain ⟨t, t'', D', htw, hpc, hlock⟩ := ih ht' (Function.update_self ..) (by omega) (by omega)
      exact ⟨t, t'', D', htw, hpc, hlock⟩

/-- `kfree` frees the page `u` of its caller. -/
theorem Twin.kfree {D : Set Nat} {h : Hart} {u : Nat} (ht : Twin L s s' D) (hp : s.pc h = .prog)
    (hown : s.owner u = some h) (hlock : s.memLock = none) :
    ∃ (t t' : State Hart) (D' : Set Nat), Twin L t t' D' ∧ t.Free u ∧ u ∉ D' := by
  have hr := (inv_reachable ht.reachable.1).own u h hown
  have hg : next L s h (.kfree (u * 4096)) = some (s.setPc h (.clear (u * 4096) 0)) := by
    simp only [next, hp]
    rw [if_pos (by simp only [PAGE_SIZE]; rwa [Nat.mul_div_cancel u (by decide)]),
      if_neg (by simp only [PAGE_SIZE]; omega), if_neg]
    unfold InRange at hr
    simp only [MEM_END]
    omega
  obtain ⟨_, ht₁⟩ := ht.follow hg
  obtain ⟨s₂, _, _, ht₂, hpc₂, hlock₂⟩ := ht₁.memset (Function.update_self ..) (by omega)
  have hg₂ : next L s₂ h .go =
      some ({ s₂ with memLock := some h }.setPc h (.freeCheck (u * 4096))) := by
    simp only [next, go, hpc₂]
    rw [show s₂.memLock = none from hlock₂.trans hlock]
  obtain ⟨_, ht₃⟩ := ht₂.follow hg₂
  generalize hs₃ : State.setPc { s₂ with memLock := some h } h (.freeCheck (u * 4096)) = s₃ at ht₃
  have hpc₃ : s₃.pc h = .freeCheck (u * 4096) := by rw [← hs₃]; exact Function.update_self ..
  have hok := (inv_reachable ht₃.reachable.1).ok h
  rw [hpc₃] at hok
  obtain ⟨v, hv, hown₃, -⟩ := hok
  obtain rfl : u = v := by omega
  have hg₃ : next L s₃ h .go = some (s₃.setPc h (.freeSet (u * 4096))) := by
    simp only [next, go, hpc₃]
    rw [if_neg ((inv_reachable ht₃.reachable.1).not_free_of_owner hown₃)]
  obtain ⟨_, ht₄⟩ := ht₃.follow hg₃
  generalize hs₄ : s₃.setPc h (.freeSet (u * 4096)) = s₄ at ht₄
  have hpc₄ : s₄.pc h = .freeSet (u * 4096) := by rw [← hs₄]; exact Function.update_self ..
  obtain ⟨t', ht₅⟩ := ht₄.follow (h := h) (a := .go) (t := _) (by simp only [next, go, hpc₄]; rfl)
  refine ⟨_, t', _, ht₅, ?_, fun hD => hD.2 ?_⟩ <;>
  · have := hr.lt
    obtain ⟨j, hj⟩ : ∃ j, u - 0x80000 = j := ⟨_, rfl⟩
    rw [pageIdx_page, hj]
    exact ⟨j, by omega, Function.update_self ..⟩

end Runs

section Witness

/-- `init_bitmap` has run. -/
theorem twin_booted : ∃ s : State Unit, Twin tinyLayout s s ∅ ∧ s.pc () = .prog ∧
    s.memLock = none ∧ s.bitmap 3 = true := by
  obtain ⟨⟨⟩, m, hrun, hfree, -⟩ := wp_iff.1 (initBitmap_spec (L := tinyLayout) fun _ => 0)
  have hb := ((hfree 0x80003).2 (by unfold InRange; decide)).2
  let s : State Unit := ⟨m.bytes, m.bitmap, none, fun _ => .prog, fun _ => none⟩
  have h0 : (system tinyLayout Unit).init s :=
    ⟨_, m, hrun, rfl, rfl, rfl, fun _ => rfl, fun _ => rfl⟩
  exact ⟨s, .start h0 h0, rfl, rfl, hb⟩

/-- A page is allocated. -/
theorem twin_allocated : ∃ (s s' : State Unit) (D : Set Nat) (addr : Nat), Twin tinyLayout s s' D ∧
    s.pc () = .allocRet addr ∧ addr ≠ 0 ∧ s.memLock = none := by
  obtain ⟨s, ht, hpc, hlock, hb⟩ := twin_booted
  obtain ⟨_, ht₁⟩ := ht.follow (h := ()) (a := .kalloc) (t := s.setPc () .allocLock) (by
    simp only [next, hpc])
  obtain ⟨_, ht₂⟩ := ht₁.follow (h := ()) (a := .go) (t := _) (by
    simp only [next, go, State.setPc, Function.update_self, hlock]
    rfl)
  obtain ⟨s₃, _, _, i, ht₃, hpc₃⟩ := ht₂.scan (i := 0) (h := ()) rfl hb (by omega) (by decide)
  obtain ⟨_, ht₄⟩ := ht₃.follow (h := ()) (a := .go) (t := _) (by
    simp only [next, go, hpc₃]
    rfl)
  obtain ⟨s₅, ht₅⟩ := ht₄.follow (h := ()) (a := .go) (t := _) (by
    simp only [next, go, State.setPc, Function.update_self]
    rfl)
  refine ⟨_, s₅, _, MEM_START + i * PAGE_SIZE, ht₅, rfl, ?_, rfl⟩
  simp only [MEM_START]
  omega

/-- Two runs: a page is allocated, a different byte is stored in it, and it is freed. -/
theorem free_pages_zero_tiny : ∃ (s s' t t' : State Unit) (D D' : Set Nat) (u : Nat),
    Twin tinyLayout s s' D ∧ s.bytes (u * 4096) ≠ s'.bytes (u * 4096) ∧
      Twin tinyLayout t t' D' ∧ t.Free u ∧ Zeroed t.bytes u ∧ Zeroed t'.bytes u ∧
        SamePage t.bytes t'.bytes u := by
  obtain ⟨hfree, htwin⟩ := @free_pages_zero tinyLayout Unit _
  obtain ⟨s, s', D, addr, ht, hpc, hne, hlock⟩ := twin_allocated
  obtain ⟨hal, hown, -⟩ := (hfree s ht.reachable.1).2 () addr hpc hne
  obtain ⟨u, rfl⟩ : ∃ u, addr = u * 4096 := ⟨addr / 4096, by simp only [PAGE_SIZE] at hal; omega⟩
  have hdiv : u * 4096 / PAGE_SIZE = u := by simp only [PAGE_SIZE]; omega
  obtain ⟨s₁', ht₁⟩ := ht.follow (h := ()) (a := .go) (t := s.setPc () .prog) (by
    simp only [next, go, hpc])
  generalize hs₁ : s.setPc () .prog = s₁ at ht₁
  have hpc₁ : s₁.pc () = .prog := by rw [← hs₁]; rfl
  have hown₁ : s₁.owner (u * 4096 / PAGE_SIZE) = some () := by rw [← hs₁]; exact hown
  obtain ⟨-, hpcs, howns, -⟩ := htwin s₁ s₁' _ ht₁
  have ht₂ := ht₁.write () (u * 4096) 1 2 (next_write_own hpc₁ hown₁)
    (next_write_own (hpcs ▸ hpc₁) (howns ▸ hown₁))
  obtain ⟨t, t', D', ht₃, hf, hD⟩ := ht₂.kfree (h := ()) (u := u) hpc₁ (hdiv ▸ hown₁)
    (by rw [← hs₁]; exact hlock)
  have hbits := (htwin t t' D' ht₃).1
  refine ⟨_, _, t, t', _, D', u, ht₂, ?_, ht₃, hf, (hfree t ht₃.reachable.1).1 u hf,
    (hfree t' ht₃.reachable.2).1 u ?_, (htwin t t' D' ht₃).2.2.2 u (.inl hf) hD⟩
  · simp
  · unfold State.Free
    rw [hbits]
    exact hf

end Witness

end Wl00.Pages
