import Mathlib.Order.Interval.Finset.Nat
import Mathlib.Data.Set.Card
import Wl00.Space.Shared

/-!
# The allocator as a pool of pages

The machine of `Wl00.Space.Shared` once more, where every hart may call `kfree` with every
address: of a page that is not its own, of a page that is free, of an address that is no
page at all.  Beside the machine a history notes each call when it begins and again when
it takes effect, which it does in one step: with `mem_lock` held, or at the checks of the
address that `kfree` starts with.

Seen from the history the allocator is a set of pages that are held (`held`), and
`Legal` says what each call may do to it.

* `pool_conserved` — in every interleaving each call does what it should to the pages that
  are held at that moment, the bitmap says which ones these are, none gets lost, and every
  call ends.
-/

namespace Wl00.Pages

open Vm

/-- What the history notes. -/
inductive Event where
  /-- `kalloc` is called. -/
  | kalloc
  /-- `kfree` is called. -/
  | kfree (pa : Nat)
  /-- `kalloc` has taken a page, or found none: this is what it returns. -/
  | got (addr : Nat)
  /-- `kfree` has freed its page. -/
  | freed (pa : Nat)
  /-- `kfree` goes to a panic. -/
  | refused (pa : Nat) (e : Panic)

section Model

variable {Hart : Type} [DecidableEq Hart]

/-- One step of hart `h`, which need not own what it frees. -/
def callNext (L : Layout) (s : State Hart) (h : Hart) : Act Hart → Option (State Hart)
  | .kfree pa =>
      match s.pc h with
      | .prog =>
          if pa % PAGE_SIZE ≠ 0 then some (s.setPc h (.panic .kfreeAlign))
          else if pa < L.startPage ∨ MEM_END ≤ pa then some (s.setPc h (.panic .kfreeRange))
          else some (s.setPc h (.clear pa 0))
      | _ => none
  | a => next L s h a

/-- The harts after `init_bitmap`. -/
def calls (L : Layout) (Hart : Type) [DecidableEq Hart] : Lts (State Hart) (Hart × Act Hart) :=
  .ofNext (system L Hart).init (fun s a => callNext L s a.1 a.2)

/-- What is noted of a step of hart `h`, newest first. -/
def events (L : Layout) (s : State Hart) (h : Hart) : Act Hart → List Event
  | .kalloc => [.kalloc]
  | .kfree pa =>
      if pa % PAGE_SIZE ≠ 0 then [.refused pa .kfreeAlign, .kfree pa]
      else if pa < L.startPage ∨ MEM_END ≤ pa then [.refused pa .kfreeRange, .kfree pa]
      else [.kfree pa]
  | .go =>
      match s.pc h with
      | .freeCheck pa => if s.bitmap (pageIdx pa) then [.refused pa .kfreeDouble] else []
      | .freeSet pa => [.freed pa]
      | .allocScan i => if i < NUM_PAGES then [] else [.got 0]
      | .allocTake i => [.got (MEM_START + i * PAGE_SIZE)]
      | _ => []
  | .write _ _ | .give _ _ => []

/-- What all harts do, newest first. -/
abbrev History (Hart : Type) := List (Hart × Event)

/-- The harts and their history. -/
def logged (L : Layout) (Hart : Type) [DecidableEq Hart] :
    Lts (State Hart × History Hart) (Hart × Act Hart) :=
  (calls L Hart).watch [] fun s a hist => (events L s a.1 a.2).map (a.1, ·) ++ hist

/-- What hart `h` does, newest first. -/
def mine (h : Hart) (hist : History Hart) : List Event :=
  (hist.filter fun x => x.1 = h).map Prod.snd

end Model

/-! ## The pool -/

/-- The pages that a `kalloc` has returned and no later `kfree` has freed. -/
def held {Hart : Type} : History Hart → Set Nat
  | [] => ∅
  | (_, .got addr) :: l => if addr = 0 then held l else insert (addr / PAGE_SIZE) (held l)
  | (_, .freed pa) :: l => held l \ {pa / PAGE_SIZE}
  | _ :: l => held l

/-- What may happen while the pages `H` are held. -/
def Legal (L : Layout) (H : Set Nat) : Event → Prop
  | .kalloc | .kfree _ => True
  | .got addr =>
      if addr = 0 then ∀ u, InRange L u → u ∈ H
      else addr % PAGE_SIZE = 0 ∧ L.startPage ≤ addr ∧ addr < MEM_END ∧
        pageIdx L.startPage ≤ pageIdx addr ∧ addr / PAGE_SIZE ∉ H
  | .freed pa => pa % PAGE_SIZE = 0 ∧ pa / PAGE_SIZE ∈ H
  | .refused pa e =>
      e = .kfreeAlign ∧ pa % PAGE_SIZE ≠ 0 ∨
      e = .kfreeRange ∧ (pa < L.startPage ∨ MEM_END ≤ pa) ∨
      e = .kfreeDouble ∧ pa / PAGE_SIZE ∉ H

/-- Whatever has happened was legal at that moment. -/
def Valid (L : Layout) {Hart : Type} : History Hart → Prop
  | [] => True
  | x :: l => Legal L (held l) x.2 ∧ Valid L l

/-- The event leaves the pages that are held as they are. -/
def Event.Quiet : Event → Prop
  | .got addr => addr = 0
  | .freed _ => False
  | _ => True

section History

variable {L : Layout} {Hart : Type} {hist : History Hart} {h : Hart} {es : List Event}

theorem held_cons {e : Event} (he : e.Quiet) : held ((h, e) :: hist) = held hist := by
  cases e with
  | got addr => exact if_pos he
  | freed pa => exact he.elim
  | _ => rfl

theorem held_append (hes : ∀ e ∈ es, e.Quiet) : held (es.map (h, ·) ++ hist) = held hist := by
  induction es with
  | nil => rfl
  | cons e es ih =>
      rw [List.map_cons, List.cons_append, held_cons (hes e (List.mem_cons_self ..))]
      exact ih fun e' he' => hes e' (List.mem_cons_of_mem _ he')

theorem valid_append (hv : Valid L hist) (hes : ∀ e ∈ es, e.Quiet ∧ Legal L (held hist) e) :
    Valid L (es.map (h, ·) ++ hist) := by
  induction es with
  | nil => exact hv
  | cons e es ih =>
      have htail : ∀ e' ∈ es, e'.Quiet ∧ Legal L (held hist) e' :=
        fun e' he' => hes e' (List.mem_cons_of_mem _ he')
      refine ⟨?_, ih htail⟩
      change Legal L (held (es.map (h, ·) ++ hist)) e
      rw [held_append fun e' he' => (htail e' he').1]
      exact (hes e (List.mem_cons_self ..)).2

variable [DecidableEq Hart]

theorem mine_append_self : mine h (es.map (h, ·) ++ hist) = es ++ mine h hist := by
  simp [mine, List.filter_map, Function.comp_def]

theorem mine_append_of_ne {h' : Hart} (hh : h' ≠ h) :
    mine h' (es.map (h, ·) ++ hist) = mine h' hist := by
  simp [mine, List.filter_map, Function.comp_def, Ne.symm hh]

end History

/-! ## What a hart knows -/

namespace Pc

/-- What a hart knows of the bitmap `b` at this point. -/
def Sees (L : Layout) (b : Nat → Bool) : Pc → Prop
  | .clear pa _ | .freeLock pa | .freeCheck pa => pa % 4096 = 0 ∧ InRange L (pa / 4096)
  | .freeSet pa => pa % 4096 = 0 ∧ InRange L (pa / 4096) ∧ b (pageIdx pa) = false
  | .allocScan i => ∀ j < i, b j = false
  | .allocTake i => b i = true
  | _ => True

/-- Nobody else changes what it knows: that takes `mem_lock`. -/
theorem Sees.frame {L : Layout} {b b' : Nat → Bool} {k : Pc} (hk : k.Sees L b)
    (hb : k.InLock → b' = b) : k.Sees L b' := by
  cases k with
  | freeSet pa | allocScan i | allocTake i => rwa [hb trivial]
  | _ => exact hk

/-- The last that the history `l` of the hart has of the call it is in. -/
def Noted (l : List Event) : Pc → Prop
  | .prog => l = [] ∨ (∃ addr l', l = .got addr :: .kalloc :: l') ∨
      ∃ pa l', l = .freed pa :: .kfree pa :: l'
  | .allocLock | .allocScan _ | .allocTake _ => ∃ l', l = .kalloc :: l'
  | .allocUnlock addr | .allocRet addr => ∃ l', l = .got addr :: .kalloc :: l'
  | .clear pa _ | .freeLock pa | .freeCheck pa | .freeSet pa => ∃ l', l = .kfree pa :: l'
  | .freeUnlock => ∃ pa l', l = .freed pa :: .kfree pa :: l'
  | .doubleUnlock => ∃ pa l', l = .refused pa .kfreeDouble :: .kfree pa :: l'
  | .panic e => ∃ pa l', l = .refused pa e :: .kfree pa :: l'

/-- How many steps a call may still take. -/
def left : Pc → Nat
  | .prog | .panic _ => 0
  | .freeUnlock | .doubleUnlock | .allocRet _ => 1
  | .freeSet _ | .allocUnlock _ => 2
  | .freeCheck _ | .allocTake _ => 3
  | .freeLock _ => 4
  | .clear _ i => 5 + (PAGE_SIZE - i)
  | .allocScan i => 4 + (NUM_PAGES - i)
  | .allocLock => 5 + NUM_PAGES

theorem InLock.left_pos {k : Pc} (hk : k.InLock) : 0 < k.left := by
  cases k <;> first | exact hk.elim | simp [left]

end Pc

theorem pageIdx_eq {pa : Nat} (hal : pa % 4096 = 0) : pageIdx pa = pa / 4096 - 0x80000 := by
  simp only [pageIdx, pgRoundDown, PAGE_SIZE, MEM_START]
  omega

/-- What every interleaving keeps. -/
structure PoolInv (L : Layout) {Hart : Type} [DecidableEq Hart] (s : State Hart)
    (hist : History Hart) : Prop where
  lock : ∀ h, (s.pc h).InLock ↔ s.memLock = some h
  bitmap : ∀ i, s.bitmap i = true ↔ InRange L (0x80000 + i) ∧ 0x80000 + i ∉ held hist
  held : ∀ u ∈ held hist, InRange L u
  valid : Valid L hist
  sees : ∀ h, (s.pc h).Sees L s.bitmap
  noted : ∀ h, (s.pc h).Noted (mine h hist)

namespace PoolInv

variable {L : Layout} {Hart : Type} [DecidableEq Hart] {s s' : State Hart} {h : Hart}
  {hist : History Hart} {k : Pc} {es : List Event}

/-- A step of hart `h` to `k`, which may change the bitmap if it holds `mem_lock`. -/
theorem step (hi : PoolInv L s hist) (hpc : s'.pc = Function.update s.pc h k)
    (hlock : ∀ h', s'.memLock = some h' ↔ if h' = h then k.InLock else s.memLock = some h')
    (hother : ¬(s.pc h).InLock → s'.bitmap = s.bitmap)
    (hbit : ∀ i, s'.bitmap i = true ↔
      InRange L (0x80000 + i) ∧ 0x80000 + i ∉ Pages.held (es.map (h, ·) ++ hist))
    (hheld : ∀ u ∈ Pages.held (es.map (h, ·) ++ hist), InRange L u)
    (hv : Valid L (es.map (h, ·) ++ hist)) (hk : k.Sees L s'.bitmap)
    (hn : k.Noted (es ++ mine h hist)) : PoolInv L s' (es.map (h, ·) ++ hist) := by
  refine ⟨lock_step hi.lock hpc hlock, hbit, hheld, hv, fun h' => ?_, fun h' => ?_⟩
  · rw [hpc]
    by_cases hh : h' = h
    · rw [hh, Function.update_self]
      exact hk
    · rw [Function.update_of_ne hh]
      -- of two harts with `mem_lock` one would be the other
      refine (hi.sees h').frame fun hin => hother fun hin' => hh ?_
      exact Option.some.inj (((hi.lock h').1 hin).symm.trans ((hi.lock h).1 hin'))
  · rw [hpc]
    by_cases hh : h' = h
    · rw [hh, Function.update_self, mine_append_self]
      exact hn
    · rw [Function.update_of_ne hh, mine_append_of_ne hh]
      exact hi.noted h'

/-- The bitmap and the pages that are held stay as they are. -/
theorem quiet (hi : PoolInv L s hist) (hpc : s'.pc = Function.update s.pc h k)
    (hb : s'.bitmap = s.bitmap)
    (ho : ∀ h', s'.memLock = some h' ↔ if h' = h then k.InLock else s.memLock = some h')
    (hes : ∀ e ∈ es, e.Quiet ∧ Legal L (Pages.held hist) e) (hk : k.Sees L s.bitmap)
    (hn : k.Noted (es ++ mine h hist)) : PoolInv L s' (es.map (h, ·) ++ hist) := by
  have hsame : Pages.held (es.map (h, ·) ++ hist) = Pages.held hist :=
    held_append fun e he => (hes e he).1
  refine hi.step hpc ho (fun _ => hb) ?_ ?_ (valid_append hi.valid hes) (by rwa [hb]) hn
  · rw [hsame, hb]
    exact hi.bitmap
  · rw [hsame]
    exact hi.held

/-- Nor does `mem_lock` change hands. -/
theorem stay (hi : PoolInv L s hist) (hpc : s'.pc = Function.update s.pc h k)
    (hb : s'.bitmap = s.bitmap) (ho : s'.memLock = s.memLock)
    (hl : k.InLock ↔ (s.pc h).InLock)
    (hes : ∀ e ∈ es, e.Quiet ∧ Legal L (Pages.held hist) e) (hk : k.Sees L s.bitmap)
    (hn : k.Noted (es ++ mine h hist)) : PoolInv L s' (es.map (h, ·) ++ hist) :=
  hi.quiet hpc hb (by rw [ho]; exact lock_kept hi.lock hl) hes hk hn

/-- The bitmap has the pages that are not held. -/
theorem not_held_iff (hi : PoolInv L s hist) {u : Nat} (hr : InRange L u) :
    s.bitmap (u - 0x80000) = true ↔ u ∉ Pages.held hist := by
  have hlt := hr.lt
  have hu : 0x80000 + (u - 0x80000) = u := by omega
  rw [hi.bitmap, hu]
  exact and_iff_right hr

/-- Where the bitmap is clear every page is held. -/
theorem all_held (hi : PoolInv L s hist) (hb : ∀ j < NUM_PAGES, s.bitmap j = false) :
    ∀ u, InRange L u → u ∈ Pages.held hist := by
  intro u hr
  have hlt := hr.lt
  by_contra hn
  have hf := hb (u - 0x80000) (by simp only [NUM_PAGES, MEM_END, MEM_START, PAGE_SIZE]; omega)
  rw [(hi.not_held_iff hr).2 hn] at hf
  cases hf

/-- `kalloc` takes page `i`. -/
theorem take (hi : PoolInv L s hist) {i : Nat} (hp : s.pc h = .allocTake i) :
    PoolInv L ({ s with
      bitmap := Function.update s.bitmap i false
      owner := Function.update s.owner (0x80000 + i) (some h) }.setPc h
        (.allocUnlock (MEM_START + i * PAGE_SIZE)))
      ([Event.got (MEM_START + i * PAGE_SIZE)].map (h, ·) ++ hist) := by
  have hb : s.bitmap i = true := by
    have hs := hi.sees h
    rwa [hp] at hs
  have hno := hi.noted h
  rw [hp] at hno
  obtain ⟨hr, hfree⟩ := (hi.bitmap i).1 hb
  have hne : MEM_START + i * PAGE_SIZE ≠ 0 := by simp only [MEM_START]; omega
  have hpage : (MEM_START + i * PAGE_SIZE) / PAGE_SIZE = 0x80000 + i := by
    simp only [MEM_START, PAGE_SIZE]
    omega
  have hheld : Pages.held ([Event.got (MEM_START + i * PAGE_SIZE)].map (h, ·) ++ hist) =
      insert (0x80000 + i) (Pages.held hist) := by
    rw [← hpage]
    exact if_neg hne
  refine hi.step rfl (lock_kept (s := s) hi.lock (by rw [hp]; rfl))
    (fun hnot => absurd (by rw [hp]; trivial) hnot) (fun j => ?_) (fun u hu => ?_)
    ⟨?_, hi.valid⟩ trivial ?_
  · rw [hheld]
    by_cases hj : j = i
    · simp [State.setPc, hj]
    · have hji : 0x80000 + j ≠ 0x80000 + i := by omega
      simp only [State.setPc, Function.update_of_ne hj, Set.mem_insert_iff, hji, false_or]
      exact hi.bitmap j
  · rw [hheld] at hu
    rcases hu with rfl | hu
    · exact hr
    · exact hi.held u hu
  · change Legal L (Pages.held hist) (.got _)
    rw [Legal, if_neg hne, hpage]
    have hs := L.startPage_eq
    unfold InRange at hr
    simp only [pageIdx, pgRoundDown, MEM_START, PAGE_SIZE, MEM_END]
    exact ⟨by omega, by omega, by omega, by omega, hfree⟩
  · obtain ⟨l', hl⟩ := hno
    exact ⟨l', by rw [hl]; rfl⟩

/-- `kfree` frees its page. -/
theorem publish (hi : PoolInv L s hist) {pa : Nat} (hp : s.pc h = .freeSet pa) :
    PoolInv L ({ s with
      bitmap := Function.update s.bitmap (pageIdx pa) true
      owner := Function.update s.owner (pa / PAGE_SIZE) none }.setPc h .freeUnlock)
      ([Event.freed pa].map (h, ·) ++ hist) := by
  have hs := hi.sees h
  have hno := hi.noted h
  rw [hp] at hs hno
  obtain ⟨hal, hr, hb⟩ := hs
  obtain ⟨u, rfl⟩ : ∃ u, pa = u * 4096 := ⟨pa / 4096, by omega⟩
  have hdiv : u * 4096 / PAGE_SIZE = u := Nat.mul_div_cancel u (by decide)
  rw [Nat.mul_div_cancel u (by decide)] at hr
  have hlt := hr.lt
  have hu : u ∈ Pages.held hist := by
    rw [pageIdx_page] at hb
    by_contra hn
    rw [(hi.not_held_iff hr).2 hn] at hb
    cases hb
  have hheld : Pages.held ([Event.freed (u * 4096)].map (h, ·) ++ hist) =
      Pages.held hist \ {u} := by
    have hfreed : Pages.held ([Event.freed (u * 4096)].map (h, ·) ++ hist) =
      Pages.held hist \ {u * 4096 / PAGE_SIZE} := rfl
    rw [hfreed, hdiv]
  have hlegal : Legal L (Pages.held hist) (.freed (u * 4096)) := by
    refine ⟨hal, ?_⟩
    rwa [hdiv]
  refine hi.step rfl (lock_kept (s := s) hi.lock (by rw [hp]; rfl))
    (fun hnot => absurd (by rw [hp]; trivial) hnot) (fun j => ?_) (fun q hq => ?_)
    ⟨hlegal, hi.valid⟩ trivial ?_
  · rw [hheld, pageIdx_page]
    by_cases hj : j = u - 0x80000
    · have huj : 0x80000 + j = u := by omega
      rw [huj, hj]
      simp [State.setPc, hr]
    · have hju : 0x80000 + j ≠ u := by omega
      simp only [State.setPc, Function.update_of_ne hj, Set.mem_sdiff, Set.mem_singleton_iff, hju,
        not_false_eq_true, and_true]
      exact hi.bitmap j
  · rw [hheld] at hq
    exact hi.held q hq.1
  · obtain ⟨l', hl⟩ := hno
    exact ⟨_, l', by rw [hl]; rfl⟩

theorem go (hi : PoolInv L s hist) (hg : Pages.go s h = some s') :
    PoolInv L s' ((events L s h .go).map (h, ·) ++ hist) := by
  have hs := hi.sees h
  have hn := hi.noted h
  rw [Pages.go] at hg
  cases hp : s.pc h <;> rw [hp] at hg hs hn <;> simp only [events, hp]
  case prog | panic => cases hg
  case clear pa i =>
    dsimp only at hg
    split_ifs at hg <;> cases hg <;>
    · exact hi.stay rfl rfl rfl (by rw [hp]; rfl) (by simp) hs hn
  case freeLock pa =>
    cases hm : s.memLock <;> rw [hm] at hg <;> cases hg
    exact hi.quiet rfl rfl (lock_acquired hm trivial) (by simp) hs hn
  case freeCheck pa =>
    dsimp only at hg
    obtain ⟨hal, hr⟩ := hs
    split_ifs at hg ⊢ with hb <;> cases hg
    · obtain ⟨l', hl⟩ := hn
      refine hi.stay rfl rfl rfl (by rw [hp]; rfl) ?_ trivial ⟨pa, l', by rw [hl]; rfl⟩
      rintro e (_ | ⟨_, ⟨⟩⟩)
      refine ⟨trivial, .inr (.inr ⟨rfl, (hi.not_held_iff hr).1 ?_⟩)⟩
      rwa [pageIdx_eq hal] at hb
    · exact hi.stay rfl rfl rfl (by rw [hp]; rfl) (by simp)
        ⟨hal, hr, by simpa using hb⟩ hn
  case freeSet pa => cases hg; exact hi.publish hp
  case freeUnlock =>
    cases hg
    refine hi.quiet rfl rfl (lock_released hi.lock (by rw [hp]; trivial) id) (by simp) trivial ?_
    exact .inr (.inr hn)
  case doubleUnlock =>
    cases hg
    exact hi.quiet rfl rfl (lock_released hi.lock (by rw [hp]; trivial) id) (by simp) trivial hn
  case allocLock =>
    cases hm : s.memLock <;> rw [hm] at hg <;> cases hg
    exact hi.quiet rfl rfl (lock_acquired hm trivial) (by simp) (fun j hj => absurd hj (by omega)) hn
  case allocScan i =>
    dsimp only at hg
    split_ifs at hg ⊢ with hlt hb <;> cases hg
    · exact hi.stay rfl rfl rfl (by rw [hp]; rfl) (by simp) hb hn
    · refine hi.stay rfl rfl rfl (by rw [hp]; rfl) (by simp) (fun j hj => ?_) hn
      rcases Nat.lt_succ_iff_lt_or_eq.1 hj with hj | rfl
      · exact hs j hj
      · simpa using hb
    · refine hi.stay rfl rfl rfl (by rw [hp]; rfl) ?_ trivial ?_
      · rintro e (_ | ⟨_, ⟨⟩⟩)
        exact ⟨rfl, hi.all_held fun j hj => hs j (by omega)⟩
      · obtain ⟨l', hl⟩ := hn
        exact ⟨l', by rw [hl]; rfl⟩
  case allocTake i => cases hg; exact hi.take hp
  case allocUnlock addr =>
    cases hg
    exact hi.quiet rfl rfl (lock_released hi.lock (by rw [hp]; trivial) id) (by simp) trivial hn
  case allocRet addr =>
    cases hg
    refine hi.stay rfl rfl rfl (by rw [hp]; rfl) (by simp) trivial ?_
    exact .inr (.inl ⟨addr, hn⟩)

theorem next (hi : PoolInv L s hist) {a : Act Hart} (hn : callNext L s h a = some s') :
    PoolInv L s' ((events L s h a).map (h, ·) ++ hist) := by
  cases a with
  | go => exact hi.go hn
  | write x b =>
      simp only [callNext, Pages.next] at hn
      split at hn
      · next hp =>
        split_ifs at hn
        cases hn
        exact ⟨hi.lock, hi.bitmap, hi.held, hi.valid, hi.sees, hi.noted⟩
      · cases hn
  | kfree pa =>
      simp only [callNext] at hn
      split at hn
      · next hp =>
        simp only [events]
        split_ifs at hn ⊢ with h1 h2 <;> cases hn
        · refine hi.stay rfl rfl rfl (by rw [hp]; rfl) ?_ trivial ⟨pa, _, rfl⟩
          rintro e (_ | ⟨_, _ | ⟨_, ⟨⟩⟩⟩)
          · exact ⟨trivial, .inl ⟨rfl, h1⟩⟩
          · exact ⟨trivial, trivial⟩
        · refine hi.stay rfl rfl rfl (by rw [hp]; rfl) ?_ trivial ⟨pa, _, rfl⟩
          rintro e (_ | ⟨_, _ | ⟨_, ⟨⟩⟩⟩)
          · exact ⟨trivial, .inr (.inl ⟨rfl, h2⟩)⟩
          · exact ⟨trivial, trivial⟩
        · refine hi.stay rfl rfl rfl (by rw [hp]; rfl) ?_ ?_ ⟨_, rfl⟩
          · rintro e (_ | ⟨_, ⟨⟩⟩)
            exact ⟨trivial, trivial⟩
          · simp only [PAGE_SIZE, MEM_END] at h1 h2
            refine ⟨by omega, ?_⟩
            unfold InRange
            omega
      · cases hn
  | kalloc =>
      simp only [callNext, Pages.next] at hn
      split at hn <;> cases hn
      next hp =>
        refine hi.stay rfl rfl rfl (by rw [hp]; rfl) ?_ trivial ⟨_, rfl⟩
        rintro e (_ | ⟨_, ⟨⟩⟩)
        exact ⟨trivial, trivial⟩
  | give u h' =>
      simp only [callNext, Pages.next] at hn
      split at hn
      · next hp =>
        split_ifs at hn
        cases hn
        exact ⟨hi.lock, hi.bitmap, hi.held, hi.valid, hi.sees, hi.noted⟩
      · cases hn

theorem start (h0 : (system L Hart).init s) : PoolInv L s [] := by
  obtain ⟨bytes, m, hrun, -, hbitmap, hlock, hpc, -⟩ := h0
  obtain ⟨hfree, -⟩ := (initBitmap_spec (L := L) bytes).of_run hrun
  refine ⟨fun h => ?_, fun i => ?_, fun u hu => hu.elim, trivial, fun h => ?_, fun h => ?_⟩
  · rw [hpc, hlock]
    exact ⟨False.elim, fun he => by cases he⟩
  · rw [hbitmap, ← hfree (0x80000 + i), Mem.free, Nat.add_sub_cancel_left]
    simp [Pages.held]
  · rw [hpc]
    trivial
  · rw [hpc]
    exact .inl rfl

theorem of_reachable (hr : (logged L Hart).Reachable (s, hist)) : PoolInv L s hist := by
  refine hr.invariant (I := fun x => PoolInv L x.1 x.2) ?_ ?_
  · rintro ⟨s, hist⟩ ⟨h0, rfl⟩
    exact start h0
  · rintro ⟨s, hist⟩ ⟨h, a⟩ ⟨s', _⟩ - hi ⟨hn, rfl⟩
    exact hi.next hn

end PoolInv

/-! ## The pages are conserved -/

section Runs

variable {L : Layout} {Hart : Type} [DecidableEq Hart] {s s' : State Hart} {h : Hart}
  {hist : History Hart}

/-- How many pages there are. -/
theorem ncard_inRange (L : Layout) :
    {u | InRange L u}.ncard = (MEM_END - L.startPage) / PAGE_SIZE := by
  have hs := L.startPage_eq
  have hset : {u | InRange L u} = ↑(Finset.Ico (L.startPage / 4096) 0x88000) := by
    ext u
    simp only [Set.mem_ofPred_eq, Finset.coe_Ico, Set.mem_Ico, InRange]
    omega
  rw [hset, Set.ncard_coe_finset, Nat.card_Ico]
  simp only [MEM_END, PAGE_SIZE]
  omega

theorem PoolInv.free_iff (hi : PoolInv L s hist) (u : Nat) :
    s.Free u ↔ InRange L u ∧ u ∉ Pages.held hist := by
  constructor
  · rintro ⟨i, rfl, hb⟩
    exact (hi.bitmap i).1 hb
  · rintro ⟨hr, hu⟩
    have hlt := hr.lt
    exact ⟨u - 0x80000, by omega, (hi.not_held_iff hr).2 hu⟩

/-- Free pages and held pages are all pages there are. -/
theorem PoolInv.ncard (hi : PoolInv L s hist) :
    {u | s.Free u}.ncard + (Pages.held hist).ncard = (MEM_END - L.startPage) / PAGE_SIZE := by
  have hfin : {u | InRange L u}.Finite :=
    (Set.finite_lt_nat 0x88000).subset fun u hu => hu.2
  have hfree : {u | s.Free u} = {u | InRange L u} \ Pages.held hist := by
    ext u
    exact hi.free_iff u
  rw [← ncard_inRange, hfree]
  exact Set.ncard_sdiff_add_ncard_of_subset hi.held hfin

/-- A step takes a call nearer to its end. -/
theorem go_left (hg : go s h = some s') : (s'.pc h).left < (s.pc h).left := by
  rw [go] at hg
  cases hp : s.pc h <;> rw [hp] at hg
  case prog | panic => cases hg
  case freeLock | allocLock =>
    cases hm : s.memLock <;> rw [hm] at hg <;> cases hg
    simp [State.setPc, Pc.left]
  all_goals
    dsimp only at hg
    try split_ifs at hg
    all_goals
      cases hg
      simp only [State.setPc, Function.update_self, Pc.left]
      omega

/-- Only the lock holds a call up. -/
theorem go_stuck (hg : go s h = none) (hp : 0 < (s.pc h).left) :
    ¬(s.pc h).InLock ∧ ∃ h', s.memLock = some h' := by
  rw [go] at hg
  cases hk : s.pc h <;> rw [hk] at hg hp
  case prog | panic => cases hp
  case freeLock | allocLock =>
    cases hm : s.memLock with
    | none => rw [hm] at hg; cases hg
    | some h' => exact ⟨id, h', rfl⟩
  all_goals
    dsimp only at hg
    try split_ifs at hg
    all_goals cases hg

/-- A step that takes no page and frees none leaves the bitmap alone. -/
theorem PoolInv.bitmap_eq (hi : PoolInv L s hist) {a : Act Hart} (hn : callNext L s h a = some s')
    (hq : ∀ e ∈ events L s h a, e.Quiet) : s'.bitmap = s.bitmap := by
  funext i
  rw [Bool.eq_iff_iff, (hi.next hn).bitmap, hi.bitmap, held_append hq]

/-- **The allocator neither duplicates nor loses pages.**  Whatever the harts call and
however their steps interleave, `kalloc` returns a page of the range that nobody holds, or
`NULL` when all are held; `kfree` gives back the page it is called with if that is held and
goes to a panic otherwise; the bitmap has the pages of the range that are not held, and
only these two change it.  A hart in a call is at the point that its history says, and it
is held up only by a hart that holds `mem_lock` and is not held up itself. -/
theorem pool_conserved (hr : (logged L Hart).Reachable (s, hist)) :
    Valid L hist ∧ (∀ u ∈ held hist, InRange L u) ∧
    (∀ u, s.Free u ↔ InRange L u ∧ u ∉ held hist) ∧
    {u | s.Free u}.ncard + (held hist).ncard = (MEM_END - L.startPage) / PAGE_SIZE ∧
    (∀ h a s', callNext L s h a = some s' → (∀ e ∈ events L s h a, e.Quiet) →
      s'.bitmap = s.bitmap) ∧
    (∀ h, (s.pc h).Noted (mine h hist)) ∧
    ∀ h, 0 < (s.pc h).left → ∃ h' s', (h' = h ∨ s.memLock = some h') ∧ go s h' = some s' ∧
      (s'.pc h').left < (s.pc h').left := by
  have hi := PoolInv.of_reachable hr
  refine ⟨hi.valid, hi.held, hi.free_iff, hi.ncard, fun h a s' => hi.bitmap_eq, hi.noted, ?_⟩
  intro h hleft
  cases hg : go s h with
  | some s' => exact ⟨h, s', .inl rfl, hg, go_left hg⟩
  | none =>
      obtain ⟨-, h', hm⟩ := go_stuck hg hleft
      have hin := (hi.lock h').2 hm
      cases hg' : go s h' with
      | some s' => exact ⟨h', s', .inr hm, hg', go_left hg'⟩
      | none =>
          exact absurd hin (go_stuck hg' hin.left_pos).1

/-- A hart that frees only what it owns is one of these. -/
theorem callNext_of_next {a : Act Hart} (hn : next L s h a = some s') :
    callNext L s h a = some s' := by
  cases a with
  | kfree pa =>
      cases hp : s.pc h <;> simp only [next, hp] at hn
      case prog =>
        obtain ⟨-, hn⟩ := Option.ite_none_right_eq_some.1 hn
        simp only [callNext, hp]
        exact hn
      all_goals cases hn
  | _ => exact hn

theorem Reachable.logged (hr : (system L Hart).Reachable s) :
    ∃ hist, (logged L Hart).Reachable (s, hist) := by
  have hc : (calls L Hart).Reachable s :=
    hr.invariant (fun _ h0 => .start h0) fun _ a _ _ hc hn =>
      hc.next (a := a) (callNext_of_next hn)
  exact hc.watch _ _

/-- A page is allocated. -/
theorem pool_conserved_tiny : ∃ (s : State Unit) (hist : History Unit) (addr : Nat),
    (logged tinyLayout Unit).Reachable (s, hist) ∧ addr ≠ 0 ∧
      (∃ l, mine () hist = .got addr :: .kalloc :: l) ∧
      {u | s.Free u}.ncard + (held hist).ncard =
        (MEM_END - tinyLayout.startPage) / PAGE_SIZE := by
  obtain ⟨s, _, _, addr, ht, hpc, hne, -⟩ := twin_allocated
  obtain ⟨hist, hr⟩ := Reachable.logged ht.reachable.1
  obtain ⟨-, -, -, hcard, -, hnoted, -⟩ := pool_conserved hr
  have hn := hnoted ()
  rw [hpc] at hn
  exact ⟨s, hist, addr, hr, hne, hn, hcard⟩

end Runs

end Wl00.Pages
