import Mathlib.Data.Set.Card
import Wl00.Sched.Fine

/-!
# Interrupts and locks across context switches

* `Sim` — the fine system does what the coarse one does: a state of it is a reachable state
  of the coarse system except for the bookkeeping of the harts that are inside `lock`,
  `unlock` or `myproc`, and what these harts have done so far is what their place says.
* `Sim.step`, `sim_reachable` — every step of the fine system is one of the coarse system, or
  none.
* `interrupts_restored` — SIE and `depth` in every run.
-/

namespace Wl00.Sched

variable {n : Nat}

open Spinlock (Cpu pushOff popOff)

/-! ## The simulation -/

/-- What the hart at this stage has done to its bookkeeping, which is `c` now and would be
`c'` if `lock`, `unlock` and `myproc` were done in one step. -/
def Stage.Fits (pc : Pc) (c c' : Cpu) : Stage → Prop
  | .out => Alike c c'
  | .lockRead sie => Alike c c' ∧ sie = c'.sie ∧ ∃ l k, pc = .acq l k
  | .lockHolding | .lockSpin => c = pushOff c' ∧ ∃ l k, pc = .acq l k
  | .unlockPop => ∃ d, popOff c = .ok d ∧ Alike d c'
  | .myprocRead sie => Alike c c' ∧ sie = c'.sie ∧ pc ≠ .user
  | .myprocPop => c = pushOff c'

/-- A thread can be interrupted at this point and stage. -/
def Saves (pc : Pc) (st : Stage) : Prop :=
  st = .out ∨ (st = .lockRead true ∧ ∃ l k, pc = .acq l k) ∨ (st = .myprocRead true ∧ pc ≠ .user)

/-- Hart `h` has turned interrupts off to take the first of its locks, and does not have it
yet. -/
def Fine.Opening (f : Fine n) (h : Fin n) : Prop :=
  (f.stage h = .lockHolding ∨ f.stage h = .lockSpin) ∧ (f.base.pcOf h).locks = ∅

/-- The state `f` with the history `g` stands for the state of the coarse system that has
the bookkeeping `C` and the history `gs`. -/
structure Sim (f : Fine n) (g : Thread n → Option First) (C : Fin n → Cpu)
    (gs : Thread n → Option First) : Prop where
  run : ((system n).watch (fun _ => none) noteFirst).Reachable (f.base.withCpus C, gs)
  fits : ∀ h, (f.stage h).Fits (f.base.pcOf h) (f.base.cpus h) (C h)
  saved : ∀ t, List.Forall₂ Saves (f.base.pcAt t).frames (f.saved t)
  same : ∀ t, (∀ h, f.base.thread h = t → ¬f.Opening h) → g t = gs t
  opening : ∀ h, f.Opening h → g (f.base.thread h) = some ⟨(C h).sie, false⟩
  /-- `unlock` has given the last lock up: `pop_off` will restore the SIE bit. -/
  popped : ∀ h x, f.stage h = .unlockPop → (f.base.pcOf h).locks = ∅ →
    g (f.base.thread h) = some x → (f.base.cur h = none → x.switched = false) → (C h).sie = x.sie
  found : ∀ h, f.stage h = .unlockPop → (f.base.pcOf h).locks = ∅ →
    g (f.base.thread h) = none → f.base.pcOf h = .utrapret

namespace Sim

variable {f f' : Fine n} {g g' gs gs' : Thread n → Option First} {C : Fin n → Cpu} {h : Fin n}

theorem inv (hs : Sim f g C gs) : Inv (f.base.withCpus C) := inv_reachable hs.run.of_watch

theorem firsts (hs : Sim f g C gs) : Firsts (f.base.withCpus C) gs := firsts_reachable hs.run

theorem thread_ne (hs : Sim f g C gs) {h' : Fin n} (hh : h' ≠ h) :
    f.base.thread h' ≠ f.base.thread h := hs.inv.thread_ne hh

/-- A step inside `lock`, `unlock` or `myproc` that the coarse system does not make. -/
theorem inside (hs : Sim f g C gs) {c : Cpu} {st : Stage}
    (hf : f' = { f with base := f.base.setCpu h c }.setStage h st)
    (hfit : st.Fits (f.base.pcOf h) c (C h)) (hpop : st ≠ .unlockPop)
    (hne : ∀ t, t ≠ f.base.thread h → g' t = g t)
    (hopen : f'.Opening h → g' (f.base.thread h) = some ⟨(C h).sie, false⟩)
    (hshut : ¬f'.Opening h → g' (f.base.thread h) = gs (f.base.thread h)) : Sim f' g' C gs := by
  have hst : ∀ h', h' ≠ h → f'.stage h' = f.stage h' := by
    intro h' hh
    rw [hf]
    exact Function.update_of_ne hh _ _
  have hself : f'.stage h = st := by
    rw [hf]
    exact Function.update_self ..
  have hcpu : f'.base.cpus = Function.update f.base.cpus h c := by rw [hf]; rfl
  have hpc : f'.base.pcOf = f.base.pcOf := by rw [hf]; rfl
  have hth : f'.base.thread = f.base.thread := by rw [hf]; rfl
  have hcur : f'.base.cur = f.base.cur := by rw [hf]; rfl
  have hop : ∀ h', h' ≠ h → (f'.Opening h' ↔ f.Opening h') := by
    intro h' hh
    unfold Fine.Opening
    rw [hst h' hh, hpc]
  have hg : ∀ h', h' ≠ h → g' (f.base.thread h') = g (f.base.thread h') :=
    fun h' hh => hne _ (hs.thread_ne hh)
  refine ⟨?_, fun h' => ?_, ?_, fun t ht => ?_, fun h' ho => ?_, fun h' x hp hl hx => ?_,
    fun h' hp hl hx => ?_⟩
  · rw [hf]
    exact hs.run
  · by_cases hh : h' = h
    · subst hh
      rw [hself, hpc, hcpu, Function.update_self]
      exact hfit
    · rw [hst h' hh, hpc, hcpu, Function.update_of_ne hh]
      exact hs.fits h'
  · rw [hf]
    exact hs.saved
  · rw [hth] at ht
    by_cases he : t = f.base.thread h
    · rw [he]
      exact hshut (ht h he.symm)
    · rw [hne t he]
      refine hs.same t fun h' hh ho => ?_
      have hne : h' ≠ h := fun hc => he (hc ▸ hh.symm)
      exact ht h' hh ((hop h' hne).2 ho)
  · rw [hth]
    by_cases hh : h' = h
    · subst hh
      exact hopen ho
    · rw [hg h' hh]
      exact hs.opening h' ((hop h' hh).1 ho)
  · by_cases hh : h' = h
    · subst hh
      exact absurd (hself.symm.trans hp) hpop
    · rw [hst h' hh] at hp
      rw [hpc] at hl
      rw [hth, hg h' hh] at hx
      rw [hcur]
      exact hs.popped h' x hp hl hx
  · by_cases hh : h' = h
    · subst hh
      exact absurd (hself.symm.trans hp) hpop
    · rw [hst h' hh] at hp
      rw [hpc] at hl ⊢
      rw [hth, hg h' hh] at hx
      exact hs.found h' hp hl hx

/-- A step that the coarse system makes, too. -/
theorem outside (hs : Sim f g C gs) {c : Choice} {d : Cpu} {e : Event}
    (hn : Sched.next (f.base.withCpus C) h c = some (f'.base.withCpus (Function.update C h d)))
    (he : e = emit (f.base.withCpus C) h c)
    (hcpus : ∀ h', h' ≠ h → f'.base.cpus h' = f.base.cpus h')
    (hst : ∀ h', h' ≠ h → f'.stage h' = f.stage h')
    (hfit : (f'.stage h).Fits (f'.base.pcOf h) (f'.base.cpus h) d)
    (hsaved : ∀ t, List.Forall₂ Saves (f'.base.pcAt t).frames (f'.saved t))
    (hopen : ¬f'.Opening h) (hg : ∀ h', h' ≠ h → g' (f.base.thread h') = g (f.base.thread h'))
    (hsame : ∀ t, (∀ h', h' ≠ h → f.base.thread h' = t → ¬f.Opening h') →
      g' t = noteFirst (f.base.withCpus C) ⟨h, c, e⟩ gs t)
    (hpop : f'.stage h = .unlockPop → (f'.base.pcOf h).locks = ∅ →
      (∀ x, g' (f'.base.thread h) = some x → (f'.base.cur h = none → x.switched = false) →
        d.sie = x.sie) ∧ (g' (f'.base.thread h) = none → f'.base.pcOf h = .utrapret)) :
    Sim f' g' (Function.update C h d) (noteFirst (f.base.withCpus C) ⟨h, c, e⟩ gs) := by
  have hstep := next_step hn
  have hpc : ∀ h', h' ≠ h → f'.base.pcOf h' = f.base.pcOf h' := fun h' hh => hs.inv.pcOf_step hstep hh
  have hcur : ∀ h', h' ≠ h → f'.base.cur h' = f.base.cur h' := fun h' hh => hstep.cur_ne hh
  have hth : ∀ h', h' ≠ h → f'.base.thread h' = f.base.thread h' := by
    intro h' hh
    rw [State.thread, State.thread, hcur h' hh]
  have hop : ∀ h', h' ≠ h → (f'.Opening h' ↔ f.Opening h') := by
    intro h' hh
    unfold Fine.Opening
    rw [hst h' hh, hpc h' hh]
  refine ⟨hs.run.next (a := ⟨h, c, e⟩) ⟨⟨hn, he⟩, rfl⟩, fun h' => ?_, hsaved, fun t ht => ?_,
    fun h' ho => ?_, fun h' x hp hl hx => ?_, fun h' hp hl hx => ?_⟩
  · by_cases hh : h' = h
    · subst hh
      rw [Function.update_self]
      exact hfit
    · rw [hst h' hh, hpc h' hh, hcpus h' hh, Function.update_of_ne hh]
      exact hs.fits h'
  · refine hsame t fun h' hh het ho => ht h' ?_ ((hop h' hh).2 ho)
    rw [hth h' hh, het]
  · have hh : h' ≠ h := by
      rintro rfl
      exact hopen ho
    rw [hth h' hh, hg h' hh, Function.update_of_ne hh]
    exact hs.opening h' ((hop h' hh).1 ho)
  · by_cases hh : h' = h
    · subst hh
      rw [Function.update_self]
      exact (hpop hp hl).1 x hx
    · rw [hst h' hh] at hp
      rw [hpc h' hh] at hl
      rw [hth h' hh, hg h' hh] at hx
      rw [hcur h' hh, Function.update_of_ne hh]
      exact hs.popped h' x hp hl hx
  · by_cases hh : h' = h
    · subst hh
      exact (hpop hp hl).2 hx
    · rw [hst h' hh] at hp
      rw [hpc h' hh] at hl ⊢
      rw [hth h' hh, hg h' hh] at hx
      exact hs.found h' hp hl hx

/-- Two harts never execute one thread, so that what holds of the harts' threads holds of
one of them. -/
theorem own_same (hs : Sim f g C gs) (hno : ¬f.Opening h) :
    g (f.base.thread h) = gs (f.base.thread h) := by
  refine hs.same _ fun h' he => ?_
  obtain rfl : h' = h := by
    by_contra hh
    exact hs.thread_ne hh he
  exact hno

theorem same_of_ne (hs : Sim f g C gs) (hno : ¬f.Opening h) {t : Thread n}
    (ht : ∀ h', h' ≠ h → f.base.thread h' = t → ¬f.Opening h') : g t = gs t := by
  refine hs.same t fun h' het => ?_
  by_cases hh : h' = h
  · rwa [hh]
  · exact ht h' hh het

/-- A hart moves on inside `lock`, `unlock` or `myproc`. -/
theorem setStage (hs : Sim f g C gs) {st : Stage}
    (hfit : st.Fits (f.base.pcOf h) (f.base.cpus h) (C h)) (hpop : st ≠ .unlockPop)
    (hop : (f.setStage h st).Opening h ↔ f.Opening h) : Sim (f.setStage h st) g C gs := by
  refine hs.inside (c := f.base.cpus h) ?_ hfit hpop (fun _ _ => rfl)
    (fun ho => hs.opening h (hop.1 ho)) fun ho => hs.own_same fun h' => ho (hop.2 h')
  simp [State.setCpu]

theorem depth_nonneg (hs : Sim f g C gs) (h : Fin n) : 0 ≤ (C h).depth := by
  have hd := hs.inv.depth h
  rw [State.cpus_withCpus] at hd
  rw [hd]
  exact Int.natCast_nonneg _

theorem depth_eq_zero (hs : Sim f g C gs) (h : Fin n) :
    (C h).depth = 0 ↔ (f.base.pcOf h).locks = ∅ := by
  have hd := hs.inv.depth h
  rw [State.cpus_withCpus, State.pcOf_withCpus] at hd
  rw [hd, ← Finset.card_eq_zero]
  exact Int.natCast_eq_zero

/-- `push_off` turns interrupts off. -/
theorem lockRead (hs : Sim f g C gs) {sie : Bool} {c : Choice} (hst : f.stage h = .lockRead sie)
    (hc : c ≠ .timer) :
    Sim ({ f with base := f.base.setCpu h (pushOffRead sie (f.base.cpus h)) }.setStage h .lockHolding)
      (f.note (h, .step c) g) C gs := by
  have hfit := hs.fits h
  rw [hst] at hfit
  obtain ⟨ha, rfl, hpc⟩ := hfit
  have hno : ¬f.Opening h := fun ho => by simp [Fine.Opening, hst] at ho
  have hd := hs.depth_eq_zero h
  rw [← ha.depth] at hd
  refine hs.inside rfl ⟨ha.pushOffRead, hpc⟩ (by decide) (fun t ht => ?_) (fun ho => ?_) fun ho => ?_
  · simp only [Fine.note, hst]
    split_ifs
    · exact Function.update_of_ne ht _ _
    · rfl
  · simp only [Fine.note, hst]
    rw [if_pos ⟨hc, hd.2 ho.2⟩, Function.update_self, ha.sie]
  · simp only [Fine.note, hst]
    rw [if_neg, hs.own_same hno]
    rintro ⟨-, h0⟩
    exact ho ⟨.inl (Function.update_self ..), hd.1 h0⟩

/-- `pop_off` ends `unlock` or `myproc`. -/
theorem pop (hs : Sim f g C gs) {d : Cpu} (hp : popOff (f.base.cpus h) = .ok d) (ha : Alike d (C h))
    (hno : ¬f.Opening h) : Sim (f.pop h) g C gs := by
  have hf : f.pop h = { f with base := f.base.setCpu h d }.setStage h .out := by
    rw [Fine.pop, hp]
  refine hs.inside hf ha (by decide) (fun _ _ => rfl) (fun ho => ?_) fun _ => hs.own_same hno
  rw [hf] at ho
  simp [Fine.Opening, Fine.setStage] at ho

theorem frames_setPc (hs : Sim f g C gs) {s : State n} {k : Pc} (hc : s.cur = f.base.cur)
    (hp : s.pcAt = f.base.pcAt) (hk : k.frames = (f.base.pcOf h).frames) (t : Thread n) :
    List.Forall₂ Saves ((s.setPc h k).pcAt t).frames (f.saved t) := by
  rw [Sched.frames_setPc hc hp hk]
  exact hs.saved t

/-- The swap of `lock` succeeds. -/
theorem lockSpin (hs : Sim f g C gs) {l : Lock} {k : Pc} (hst : f.stage h = .lockSpin)
    (hp : f.base.pcOf h = .acq l k) (hl : f.base.locks l = none) :
    ∃ C' gs', Sim ({ f with base := (f.base.setLock l (some h)).setPc h k }.setStage h .out) g C' gs' := by
  have hfit := hs.fits h
  rw [hst] at hfit
  have hd := hs.depth_eq_zero h
  have hopen : f.Opening h ↔ ((f.base.withCpus C).cpus h).depth = 0 := by
    rw [State.cpus_withCpus, hd]
    exact ⟨fun ho => ho.2, fun hl => ⟨.inr hst, hl⟩⟩
  refine ⟨_, _, hs.outside (h := h) (c := .go) (d := pushOff (C h)) (e := _) ?_ rfl
    (fun h' _ => congrFun (State.cpus_setPc ..) h') (fun h' hh => Function.update_of_ne hh _ _) ?_
    (hs.frames_setPc rfl rfl (by rw [hp]; rfl)) ?_ (fun _ _ => rfl) (fun t ht => ?_) ?_⟩
  · simp only [Sched.next, Sched.go, State.pcOf_withCpus, hp, lock, State.locks_withCpus, hl]
    exact congrArg some
      (State.setPc_withCpus (f.base.setLock l (some h)) (Function.update C h (pushOff (C h))) h k)
  · rw [Fine.stage_setStage]
    show Alike (State.cpus (State.setPc _ h k) h) _
    rw [State.cpus_setPc]
    exact hfit.1 ▸ .refl _
  · simp [Fine.Opening, Fine.setStage]
  · simp only [noteFirst, State.pcOf_withCpus, hp]
    rw [if_neg (by decide)]
    by_cases he : t = f.base.thread h
    · subst he
      by_cases h0 : ((f.base.withCpus C).cpus h).depth = 0
      · rw [if_pos h0]
        rw [State.thread_withCpus, Function.update_self]
        exact hs.opening h (hopen.2 h0)
      · rw [if_neg h0]
        exact hs.own_same (h0 ∘ hopen.1)
    · have hgt : g t = gs t := by
        refine hs.same t fun h' het => ht h' ?_ het
        rintro rfl
        exact he het.symm
      split_ifs
      · exact hgt.trans (Function.update_of_ne he _ _).symm
      · exact hgt
  · simp [Fine.setStage]

/-- `unlock` gives the last lock up: `intena` is the SIE bit from before the first. -/
theorem last_unlock (hs : Sim f g C gs) {l : Lock} {k : Pc} (hno : ¬f.Opening h)
    (hp : f.base.pcOf h = .rel l k) (hk : k.locks = ∅) {d : Cpu} (hd : popOff (C h) = .ok d) :
    (∀ x, g (f.base.thread h) = some x → (f.base.cur h = none → x.switched = false) →
      d.sie = x.sie) ∧ (g (f.base.thread h) = none → k = .utrapret) := by
  have hi := hs.inv
  have ho := hs.firsts.hart h
  have hne : ((f.base.withCpus C).pcOf h).locks ≠ ∅ := by
    rw [State.pcOf_withCpus, hp]
    simp
  have hdep := hi.depth h
  rw [State.cpus_withCpus, State.pcOf_withCpus, hp] at hdep
  have hsie : d.sie = (C h).intena := by
    refine popOff_last hd ?_
    rw [hdep, Pc.locks, hk]
    rfl
  rw [hs.own_same hno]
  refine ⟨fun x hx hsw => ?_, fun hnone => ?_⟩
  · rw [hsie]
    exact ho.run x hne (by rw [State.pcOf_withCpus, hp]; exact fun _ _ he => by cases he) hx hsw
  · obtain ⟨p, -, he | he⟩ := ho.own hne hnone
    · rw [State.pcOf_withCpus, hp] at he
      cases he
    · rw [State.pcOf_withCpus, hp] at he
      cases he
      rfl

/-- `unlock` gives the lock up. -/
theorem unlock (hs : Sim f g C gs) {l : Lock} {k : Pc} (hst : f.stage h = .out)
    (hp : f.base.pcOf h = .rel l k) :
    f.base.locks l = some h ∧ ∃ C' gs',
      Sim ({ f with base := (f.base.setLock l none).setPc h k }.setStage h .unlockPop) g C' gs' := by
  have hfit := hs.fits h
  rw [hst] at hfit
  have hi := hs.inv
  have hl : f.base.locks l = some h := (hi.lock h l).2 (by rw [State.pcOf_withCpus, hp]; simp)
  have hno : ¬f.Opening h := fun ho => by simp [Fine.Opening, hst] at ho
  obtain ⟨d, hd⟩ : ∃ d, popOff (C h) = .ok d := by
    rcases hpop : popOff (C h) with m | d
    · have hpan : Panics (f.base.withCpus C) h ((f.base.withCpus C).pcOf h) := by
        rw [State.pcOf_withCpus, hp]
        exact .pop l k m hl hpop
      exact absurd hpan hi.not_panics
    · exact ⟨d, rfl⟩
  refine ⟨hl, _, _, hs.outside (h := h) (c := .go) (d := d) (e := _) ?_ rfl
    (fun h' _ => congrFun (State.cpus_setPc ..) h') (fun h' hh => Function.update_of_ne hh _ _) ?_
    (hs.frames_setPc rfl rfl (by rw [hp]; rfl)) ?_ (fun _ _ => rfl) (fun t ht => ?_) ?_⟩
  · simp only [Sched.next, Sched.go, State.pcOf_withCpus, hp]
    rw [unlock_of_held (s := f.base.withCpus C) hl hd]
    exact congrArg some (State.setPc_withCpus (f.base.setLock l none) (Function.update C h d) h k)
  · rw [Fine.stage_setStage]
    show ∃ d', popOff (State.cpus (State.setPc _ h k) h) = _ ∧ _
    rw [State.cpus_setPc]
    exact hfit.popOff hd
  · simp [Fine.Opening, Fine.setStage]
  · simp only [noteFirst, State.pcOf_withCpus, hp, ite_self]
    exact hs.same_of_ne hno ht
  · rintro - hk
    have hk : k.locks = ∅ := by
      rw [← hk]
      exact congrArg Pc.locks (State.pcOf_setPc_self ..).symm
    have hth : State.thread (State.setPc (f.base.setLock l none) h k) h = f.base.thread h := by
      simp [State.thread, State.setLock]
    have hcur : State.cur (State.setPc (f.base.setLock l none) h k) h = f.base.cur h :=
      congrFun (State.cur_setPc ..) h
    obtain ⟨h1, h2⟩ := hs.last_unlock hno hp hk hd
    refine ⟨fun x hx hsw => h1 x (hth ▸ hx) (hcur ▸ hsw), fun hnone => ?_⟩
    exact (State.pcOf_setPc_self ..).trans (h2 (hth ▸ hnone))

theorem note_out {c : Choice} (hst : f.stage h = .out) (hacq : ∀ l k, f.base.pcOf h ≠ .acq l k) :
    f.note (h, .step c) g = noteFirst f.base ⟨h, c, .tau⟩ g := by
  simp only [Fine.note, hst]

/-- A step outside of `lock`, `unlock` and `myproc`, after which the hart is at stage `st`. -/
theorem goOut (hs : Sim f g C gs) {c : Choice} {s : State n} (hst : f.stage h = .out)
    (hc : c ≠ .timer) (hacq : ∀ l k, f.base.pcOf h ≠ .acq l k)
    (hrel : ∀ l k, f.base.pcOf h ≠ .rel l k) (hgo : Sched.go f.base h c = some s)
    (hbase : f'.base = s) (hother : ∀ h', h' ≠ h → f'.stage h' = f.stage h')
    (hfit : ∀ d, Alike (s.cpus h) d → (f'.stage h).Fits (s.pcOf h) (s.cpus h) d)
    (hin : f'.stage h ≠ .lockHolding ∧ f'.stage h ≠ .lockSpin ∧ f'.stage h ≠ .unlockPop)
    (hsaved : s.pcOf h ≠ .panic → ∀ t, List.Forall₂ Saves (s.pcAt t).frames (f'.saved t)) :
    ∃ C' gs', Sim f' (f.note (h, .step c) g) C' gs' := by
  have ha := hs.fits h
  rw [hst] at ha
  obtain ⟨d, hn, hd, hcpus⟩ := go_follows ha hacq hrel hgo
  rw [← next_of_ne_timer hc] at hn
  have hno : ¬f.Opening h := fun ho => by simp [Fine.Opening, hst] at ho
  have hwf := (step_inv hs.inv (next_step hn)).wf h
  rw [note_out hst hacq]
  subst hbase
  refine ⟨_, _, hs.outside hn rfl hcpus hother (hfit d hd) (hsaved fun hp => ?_) ?_ (fun h' hh => ?_)
    (fun t ht => ?_) fun hp => absurd hp hin.2.2⟩
  · rw [State.pcOf_withCpus, hp] at hwf
    exact hwf
  · rintro ⟨h1 | h1, -⟩
    · exact hin.1 h1
    · exact hin.2.1 h1
  · exact noteFirst_ne (hs.thread_ne hh) fun _ _ hp => Firsts.paAlloc_ne hs.inv hp
  · have hcongr : noteFirst (f.base.withCpus C) ⟨h, c, emit (f.base.withCpus C) h c⟩ gs t =
        noteFirst f.base ⟨h, c, .tau⟩ g t :=
      noteFirst_congr hacq rfl rfl rfl rfl (hs.same_of_ne hno ht).symm
    exact hcongr.symm

theorem plain (hs : Sim f g C gs) {c : Choice} {s : State n} (hst : f.stage h = .out)
    (hc : c ≠ .timer) (hacq : ∀ l k, f.base.pcOf h ≠ .acq l k)
    (hrel : ∀ l k, f.base.pcOf h ≠ .rel l k) (hret : ∀ k, f.base.pcOf h ≠ .sret k)
    (hall : ∀ p i, f.base.pcOf h ≠ .paAlloc p i) (hgo : Sched.go f.base h c = some s) :
    ∃ C' gs', Sim { f with base := s } (f.note (h, .step c) g) C' gs' := by
  have ha := hs.fits h
  rw [hst] at ha
  obtain ⟨d, hn, -, -⟩ := go_follows ha hacq hrel hgo
  refine hs.goOut hst hc hacq hrel hgo rfl (fun _ _ => rfl) (fun d hd => ?_) ?_ fun hp t => ?_
  · show (f.stage h).Fits _ _ _
    rw [hst]
    exact hd
  · show f.stage h ≠ _ ∧ f.stage h ≠ _ ∧ f.stage h ≠ _
    rw [hst]
    decide
  · rcases go_frames hs.inv hn hacq hrel hret hall with hfr | hpan
    · rw [show (s.pcAt t).frames = (f.base.pcAt t).frames from hfr t]
      exact hs.saved t
    · exact absurd hpan hp

/-- The thread returns from an interrupt to the place where it was. -/
theorem sret (hs : Sim f g C gs) {c : Choice} {s : State n} {k : Pc} (hst : f.stage h = .out)
    (hc : c ≠ .timer) (hp : f.base.pcOf h = .sret k) (hgo : Sched.go f.base h c = some s) :
    ∃ C' gs', Sim ({ f with
      base := s
      saved := Function.update f.saved (f.base.thread h) (f.saved (f.base.thread h)).tail }.setStage
        h ((f.saved (f.base.thread h)).headD .out)) (f.note (h, .step c) g) C' gs' := by
  have hs' := hs.saved (f.base.thread h)
  rw [State.pcAt_thread, hp] at hs'
  obtain ⟨st, l, hsv, hrest, hl⟩ : ∃ st l, Saves k st ∧ List.Forall₂ Saves k.frames l ∧
      f.saved (f.base.thread h) = st :: l := by
    generalize f.saved (f.base.thread h) = sv at hs'
    cases hs' with
    | cons h1 h2 => exact ⟨_, _, h1, h2, rfl⟩
  have he : s = (f.base.setSie h true).setPc h k := by
    simp only [Sched.go, hp] at hgo
    exact (Option.some.inj hgo).symm
  have hpc : s.pcOf h = k := by rw [he]; exact State.pcOf_setPc_self ..
  have hsie : (s.cpus h).sie = true := by simp [he, State.setSie, State.setCpu]
  rw [hl]
  refine hs.goOut hst hc (by rw [hp]; exact fun _ _ he => by cases he)
    (by rw [hp]; exact fun _ _ he => by cases he) hgo rfl
    (fun h' hh => Function.update_of_ne hh _ _) (fun d hd => ?_) ?_ fun _ t => ?_
  · rw [Fine.stage_setStage, hpc]
    rcases hsv with rfl | ⟨rfl, hk⟩ | ⟨rfl, hk⟩
    · exact hd
    · exact ⟨hd, by rw [← hd.sie, hsie], hk⟩
    · exact ⟨hd, by rw [← hd.sie, hsie], hk⟩
  · rw [Fine.stage_setStage]
    rcases hsv with rfl | ⟨rfl, -⟩ | ⟨rfl, -⟩ <;> simp
  · show List.Forall₂ Saves _ (Function.update f.saved (f.base.thread h) l t)
    have hth : (f.base.setSie h true).thread h = f.base.thread h := rfl
    rw [he, State.pcAt_setPc, hth]
    by_cases ht : t = f.base.thread h
    · rw [ht, Function.update_self, if_pos rfl]
      exact hrest
    · rw [Function.update_of_ne ht, if_neg ht]
      exact hs.saved t

/-- `procalloc` prepares a thread. -/
theorem paAlloc (hs : Sim f g C gs) {c : Choice} {s : State n} {p i : Slot} (hst : f.stage h = .out)
    (hc : c ≠ .timer) (hp : f.base.pcOf h = .paAlloc p i) (hgo : Sched.go f.base h c = some s) :
    ∃ C' gs', Sim { f with
      base := s
      saved := if c = .fail then f.saved else Function.update f.saved (.proc i) [] }
        (f.note (h, .step c) g) C' gs' := by
  refine hs.goOut hst hc (by rw [hp]; exact fun _ _ he => by cases he)
    (by rw [hp]; exact fun _ _ he => by cases he) hgo rfl (fun _ _ => rfl) (fun d hd => ?_) ?_
    fun _ t => ?_
  · show (f.stage h).Fits _ _ _
    rw [hst]
    exact hd
  · show f.stage h ≠ _ ∧ f.stage h ≠ _ ∧ f.stage h ≠ _
    rw [hst]
    decide
  · simp only [Sched.go, hp] at hgo
    by_cases hfail : c = .fail
    · rw [if_pos hfail] at hgo ⊢
      cases hgo
      exact hs.frames_setPc rfl rfl (by rw [hp]; rfl) t
    · rw [if_neg hfail] at hgo ⊢
      cases hgo
      have hth : State.thread { f.base with tpc := Function.update f.base.tpc i (.forkret i) } h =
        f.base.thread h := rfl
      have hold := hs.saved t
      have hne : f.base.thread h ≠ .proc i := Firsts.paAlloc_ne hs.inv hp
      show List.Forall₂ Saves _ (Function.update f.saved (.proc i) [] t)
      rw [State.pcAt_setPc, hth]
      by_cases ht : t = f.base.thread h
      · rw [ht, State.pcAt_thread, hp] at hold
        rw [ht, if_pos rfl, Function.update_of_ne hne]
        exact hold
      · rw [if_neg ht]
        by_cases hi : t = .proc i
        · rw [hi, Function.update_self]
          simp [State.pcAt]
        · rw [Function.update_of_ne hi]
          cases t with
          | sched h' => exact hold
          | proc q =>
              have hq : q ≠ i := fun he => hi (he ▸ rfl)
              simpa [State.pcAt, hq] using hold

/-- A timer interrupt. -/
theorem timer (hs : Sim f g C gs) (hn : f.timer h = some f') :
    ∃ C' gs', Sim f' g C' gs' := by
  obtain ⟨s, ht, rfl⟩ := Option.map_eq_some_iff.1 hn
  have hsie : (f.base.cpus h).sie = true := by
    unfold Sched.timer at ht
    split at ht
    · next hsie => exact hsie
    · cases ht
  have hfit := hs.fits h
  obtain ⟨ha, hsv⟩ : Alike (f.base.cpus h) (C h) ∧ Saves (f.base.pcOf h) (f.stage h) := by
    generalize f.stage h = st at hfit
    cases st with
    | out => exact ⟨hfit, .inl rfl⟩
    | lockRead b =>
        obtain ⟨ha, rfl, hp⟩ := hfit
        exact ⟨ha, .inr (.inl ⟨by rw [← ha.sie, hsie], hp⟩)⟩
    | myprocRead b =>
        obtain ⟨ha, rfl, hp⟩ := hfit
        exact ⟨ha, .inr (.inr ⟨by rw [← ha.sie, hsie], hp⟩)⟩
    | lockHolding | lockSpin =>
        rw [hfit.1] at hsie
        cases hsie
    | myprocPop =>
        rw [show f.base.cpus h = _ from hfit] at hsie
        cases hsie
    | unlockPop =>
        obtain ⟨d, hd, -⟩ := hfit
        rw [popOff, if_pos hsie] at hd
        cases hd
  obtain ⟨d, hn', hd, hcpus⟩ := timer_follows ha ht
  have hframes : ∀ t, (s.pcAt t).frames = if t = f.base.thread h ∧ f.base.pcOf h ≠ .user then
      f.base.pcOf h :: (f.base.pcOf h).frames else (f.base.pcAt t).frames := by
    intro t
    have hfr := timer_frames hs.inv hn' t
    exact hfr
  have hno : ¬f.Opening h := by
    rintro ⟨h1 | h1, -⟩ <;> rcases hsv with h2 | ⟨h2, -⟩ | ⟨h2, -⟩ <;> rw [h1] at h2 <;> cases h2
  have hnote : ∀ t, (∀ h', h' ≠ h → f.base.thread h' = t → ¬f.Opening h') →
      g t = noteFirst (f.base.withCpus C) ⟨h, .timer, emit (f.base.withCpus C) h .timer⟩ gs t := by
    intro t ht
    rw [noteFirst, if_pos rfl]
    exact hs.same_of_ne hno ht
  by_cases hp : f.base.pcOf h = .user
  · have hst : f.stage h = .out := by
      rcases hsv with hst | ⟨-, l, k, hk⟩ | ⟨-, hk⟩
      · exact hst
      · rw [hp] at hk
        cases hk
      · exact absurd hp hk
    rw [if_pos hp]
    refine ⟨_, _, hs.outside (c := .timer) (e := _) hn' rfl hcpus (fun _ _ => rfl) ?_ (fun t => ?_) ?_
      (fun _ _ => rfl) hnote ?_⟩
    · show (f.stage h).Fits _ _ _
      rw [hst]
      exact hd
    · show List.Forall₂ Saves (s.pcAt t).frames (f.saved t)
      rw [hframes, if_neg fun hc => hc.2 hp]
      exact hs.saved t
    · exact fun ho => by simp [Fine.Opening, hst] at ho
    · exact fun hu => by rw [show f.stage h = _ from hu] at hst; cases hst
  · rw [if_neg hp]
    refine ⟨_, _, hs.outside (c := .timer) (e := _) hn' rfl hcpus
      (fun h' hh => Function.update_of_ne hh _ _) ?_ (fun t => ?_) ?_ (fun _ _ => rfl) hnote ?_⟩
    · rw [Fine.stage_setStage]
      exact hd
    · show List.Forall₂ Saves (s.pcAt t).frames (Function.update f.saved (f.base.thread h) _ t)
      rw [hframes]
      by_cases ht : t = f.base.thread h
      · rw [if_pos ⟨ht, hp⟩, ht, Function.update_self]
        refine .cons hsv ?_
        rw [← State.pcAt_thread]
        exact hs.saved _
      · rw [if_neg fun hc => ht hc.1, Function.update_of_ne ht]
        exact hs.saved t
    · simp [Fine.Opening, Fine.setStage]
    · simp [Fine.setStage]

theorem note_timer : f.note (h, .step .timer) g = g := by
  simp only [Fine.note]
  cases f.stage h <;> try rfl
  · cases f.base.pcOf h <;> rfl

/-- A step of a hart that is in none of the three. -/
theorem step_out (hs : Sim f g C gs) {c : Choice} (hst : f.stage h = .out) (hc : c ≠ .timer)
    (hn : f.goOut h c = some f') : ∃ C' gs', Sim f' (f.note (h, .step c) g) C' gs' := by
  have ha := hs.fits h
  rw [hst] at ha
  unfold Fine.goOut at hn
  cases hp : f.base.pcOf h <;> rw [hp] at hn <;> dsimp only at hn
  case acq l k =>
    cases hn
    have hnote : f.note (h, .step c) g = g := by simp only [Fine.note, hst, hp]
    rw [hnote]
    refine ⟨C, gs, hs.setStage ⟨ha, ha.sie, l, k, hp⟩ (by simp) ?_⟩
    simp [Fine.Opening, hst]
  case rel l k =>
    obtain ⟨hl, C', gs', hs'⟩ := hs.unlock hst hp
    rw [if_pos hl] at hn
    cases hn
    have hnote : f.note (h, .step c) g = g := by
      simp only [Fine.note, hst, hp, noteFirst, ite_self]
    rw [hnote]
    exact ⟨C', gs', hs'⟩
  case sret k =>
    obtain ⟨s, hgo, rfl⟩ := Option.map_eq_some_iff.1 hn
    exact hs.sret hst hc hp hgo
  case paAlloc p i =>
    obtain ⟨s, hgo, rfl⟩ := Option.map_eq_some_iff.1 hn
    exact hs.paAlloc hst hc hp hgo
  all_goals
    obtain ⟨s, hgo, rfl⟩ := Option.map_eq_some_iff.1 hn
    refine hs.plain hst hc ?_ ?_ ?_ ?_ hgo <;> rw [hp] <;> simp

/-- **The coarse system does every step of the fine one.** -/
theorem step (hs : Sim f g C gs) {a : Act} (hn : f.next h a = some f') :
    ∃ C' gs', Sim f' (f.note (h, a) g) C' gs' := by
  have hfit := hs.fits h
  cases a with
  | myproc =>
      simp only [Fine.next] at hn
      split_ifs at hn with hc
      cases hn
      obtain ⟨hst, hp⟩ := hc
      rw [hst] at hfit
      refine ⟨C, gs, hs.setStage ⟨hfit, hfit.sie, hp⟩ (by simp) ?_⟩
      simp [Fine.Opening, hst]
  | step c =>
      simp only [Fine.next] at hn
      by_cases hc : c = .timer
      · rw [if_pos hc] at hn
        rw [hc, note_timer]
        exact hs.timer hn
      rw [if_neg hc] at hn
      unfold Fine.go at hn
      cases hst : f.stage h <;> rw [hst] at hn hfit <;> dsimp only at hn
      case out => exact hs.step_out hst hc hn
      case lockRead b =>
        cases hn
        exact ⟨C, gs, hs.lockRead hst hc⟩
      all_goals
        have hnote : f.note (h, .step c) g = g := by simp only [Fine.note, hst]
        rw [hnote]
      case lockHolding =>
        obtain ⟨hcpu, l, k, hp⟩ := hfit
        have hl : ¬f.base.locks l = some h := fun hl => by
          have := (hs.inv.lock h l).1 hl
          rw [State.pcOf_withCpus, hp] at this
          simp at this
        rw [hp] at hn
        dsimp only at hn
        rw [if_neg hl] at hn
        cases hn
        refine ⟨C, gs, hs.setStage ⟨hcpu, l, k, hp⟩ (by decide) ?_⟩
        simp [Fine.Opening, hst]
      case lockSpin =>
        obtain ⟨hcpu, l, k, hp⟩ := hfit
        rw [hp] at hn
        dsimp only at hn
        by_cases hl : f.base.locks l = none
        · rw [if_pos hl] at hn
          cases hn
          exact hs.lockSpin hst hp hl
        · rw [if_neg hl] at hn
          cases hn
          exact ⟨C, gs, hs⟩
      case unlockPop =>
        cases hn
        obtain ⟨d, hd, ha⟩ := hfit
        exact ⟨C, gs, hs.pop hd ha (by simp [Fine.Opening, hst])⟩
      case myprocRead b =>
        cases hn
        obtain ⟨ha, rfl, hp⟩ := hfit
        have hno : ¬f.Opening h := by simp [Fine.Opening, hst]
        refine ⟨C, gs, hs.inside rfl ha.pushOffRead (by decide) (fun _ _ => rfl) (fun ho => ?_)
          fun _ => hs.own_same hno⟩
        simp [Fine.Opening, Fine.setStage] at ho
      case myprocPop =>
        cases hn
        obtain ⟨d, hd, ha⟩ := Alike.popOff_pushOff (c := C h) (hs.depth_nonneg h) (hs.inv.sie h)
        rw [← show f.base.cpus h = _ from hfit] at hd
        exact ⟨C, gs, hs.pop hd ha (by simp [Fine.Opening, hst])⟩

end Sim

/-- **Every run of the fine system is one of the coarse system.** -/
theorem sim_reachable {f : Fine n} {g : Thread n → Option First}
    (hr : ((fineSystem n).watch (fun _ => none) Fine.note).Reachable (f, g)) :
    ∃ C gs, Sim f g C gs := by
  refine hr.invariant (I := fun x => ∃ C gs, Sim x.1 x.2 C gs) ?_ ?_
  · rintro ⟨f, g⟩ ⟨rfl, rfl⟩
    refine ⟨(boot n).cpus, fun _ => none, .start ⟨rfl, rfl⟩, fun _ => .refl _, fun t => ?_,
      fun _ _ => rfl, fun h ho => ?_, fun h x hp => (by cases hp), fun h hp => (by cases hp)⟩
    · cases t <;> exact .nil
    · rcases ho.1 with h1 | h1 <;> cases h1
  · rintro ⟨f, g⟩ ⟨h, a⟩ ⟨f', g'⟩ - ⟨C, gs, hs⟩ ⟨hn, rfl⟩
    exact hs.step hn

/-! ## SIE and `depth` -/

/-- The end of `unlock` on hart `h`: it holds no lock any more, and the history says that
its thread found SIE as in `x` when it took the first of its locks. -/
structure LastUnlock (f : Fine n) (g : Thread n → Option First) (h : Fin n) (o : Option First) :
    Prop where
  stage : f.stage h = .unlockPop
  locks : ∀ l, f.base.locks l ≠ some h
  first : g (f.base.thread h) = o

namespace Sim

variable {f f' : Fine n} {g gs : Thread n → Option First} {C : Fin n → Cpu} {h : Fin n}

theorem locks_iff (hs : Sim f g C gs) (h : Fin n) (l : Lock) :
    f.base.locks l = some h ↔ l ∈ (f.base.pcOf h).locks := hs.inv.lock h l

theorem locks_eq_empty (hs : Sim f g C gs) (hl : ∀ l, f.base.locks l ≠ some h) :
    (f.base.pcOf h).locks = ∅ :=
  Finset.eq_empty_of_forall_notMem fun l hm => hl l ((hs.locks_iff h l).2 hm)

theorem sie_of_depth (hs : Sim f g C gs) (hd : 0 < (f.base.cpus h).depth) :
    (f.base.cpus h).sie = false := by
  have hfit := hs.fits h
  have hsie := hs.inv.sie h
  have alike : Alike (f.base.cpus h) (C h) → (f.base.cpus h).sie = false := by
    intro ha
    rw [ha.depth] at hd
    rw [ha.sie]
    cases hc : (C h).sie
    · rfl
    · have := hsie hc
      rw [State.cpus_withCpus] at this
      omega
  generalize f.stage h = st at hfit
  cases st with
  | out => exact alike hfit
  | lockRead b | myprocRead b => exact alike hfit.1
  | lockHolding | lockSpin =>
      rw [hfit.1]
      rfl
  | myprocPop =>
      rw [show f.base.cpus h = _ from hfit]
      rfl
  | unlockPop =>
      obtain ⟨d, hp, -⟩ := hfit
      cases hc : (f.base.cpus h).sie
      · rfl
      · rw [popOff, if_pos hc] at hp
        cases hp

theorem depth_eq (hs : Sim f g C gs) (hst : f.stage h = .out) :
    (f.base.cpus h).depth = Set.ncard {l | f.base.locks l = some h} := by
  have ha := hs.fits h
  rw [hst] at ha
  have hset : {l | f.base.locks l = some h} = ↑(f.base.pcOf h).locks := by
    ext l
    exact hs.locks_iff h l
  rw [hset, Set.ncard_coe_finset, ha.depth]
  exact hs.inv.depth h

theorem pcOf_ne_panic (hs : Sim f g C gs) (h : Fin n) : f.base.pcOf h ≠ .panic := by
  intro hp
  have hw := hs.inv.wf h
  rw [State.pcOf_withCpus, hp] at hw
  exact hw

/-- The step that ends `unlock` restores SIE. -/
theorem sie_restored (hs : Sim f g C gs) {x : First} (hu : LastUnlock f g h (some x))
    (hx : f.base.cur h = none → x.switched = false) {a : Act} (hn : f.next h a = some f') :
    f'.stage h = .out ∧ (f'.base.cpus h).sie = x.sie := by
  obtain ⟨hst, hl, hg⟩ := hu
  have hfit := hs.fits h
  rw [hst] at hfit
  obtain ⟨d, hp, ha⟩ := hfit
  have hsie : ¬(f.base.cpus h).sie = true := by
    intro hc
    rw [popOff, if_pos hc] at hp
    cases hp
  have hd : d.sie = x.sie := by
    rw [ha.sie]
    exact hs.popped h x hst (hs.locks_eq_empty hl) hg hx
  cases a with
  | myproc => simp [Fine.next, hst] at hn
  | step c =>
      simp only [Fine.next] at hn
      by_cases hc : c = .timer
      · simp [hc, Fine.timer, Sched.timer, hsie] at hn
      · simp only [if_neg hc, Fine.go, hst, Fine.pop, hp] at hn
        cases hn
        exact ⟨Fine.stage_setStage .., by simp [State.setCpu, hd]⟩

end Sim

/-- **Interrupts and locks survive every context switch.**  In every run of any number of
harts, with threads that sleep, yield and resume wherever they are scheduled, and with
interrupts inside of `lock` and `myproc`: a hart whose `depth` is positive has SIE off;
outside of `lock`, `unlock` and `myproc`, `depth` is the number of locks it holds; no hart
gets to a panic of `sched`, of `pop_off` or of any other function; and when a thread has
released the last of its locks, SIE is what it was when it took the first of them.  For a
scheduler this is so unless it has been away in a process in the meantime; and a thread that
has not taken the lock it releases is in `forkret`. -/
theorem interrupts_restored {f : Fine n} {g : Thread n → Option First}
    (hr : ((fineSystem n).watch (fun _ => none) Fine.note).Reachable (f, g)) :
    (∀ h, 0 < (f.base.cpus h).depth → (f.base.cpus h).sie = false) ∧
    (∀ h, f.stage h = .out →
      (f.base.cpus h).depth = Set.ncard {l | f.base.locks l = some h}) ∧
    (∀ h, f.base.pcOf h ≠ .panic) ∧
    (∀ h x a f', LastUnlock f g h (some x) → (f.base.cur h = none → x.switched = false) →
      (fineSystem n).step f (h, a) f' → f'.stage h = .out ∧ (f'.base.cpus h).sie = x.sie) ∧
    ∀ h, LastUnlock f g h none → f.base.pcOf h = .utrapret := by
  obtain ⟨C, gs, hs⟩ := sim_reachable hr
  refine ⟨fun h => hs.sie_of_depth, fun h => hs.depth_eq, hs.pcOf_ne_panic, ?_, ?_⟩
  · exact fun h x a f' hu hx hn => hs.sie_restored hu hx hn
  · exact fun h hu => hs.found h hu.stage (hs.locks_eq_empty hu.locks) hu.first

/-- `k` steps of hart `h` that leave it no choice. -/
def fineGoes (h : Fin n) (k : Nat) : List (Fin n × Act) := List.replicate k (h, .step .go)

/-- Follow a schedule from boot, with the history. -/
def fineRun (l : List (Fin n × Act)) : Option (Fine n × (Thread n → Option First)) :=
  Lts.exec (Lts.watchNext (fun f a => f.next a.1 a.2) Fine.note) l
    (⟨boot n, fun _ => .out, fun _ => []⟩, fun _ => none)

theorem reachable_fineRun {l : List (Fin n × Act)} {x : Fine n × (Thread n → Option First)}
    (hr : fineRun l = some x) : ((fineSystem n).watch (fun _ => none) Fine.note).Reachable x := by
  have h0 : ((fineSystem n).watch (fun _ => none) Fine.note).Reachable
      (⟨boot n, fun _ => .out, fun _ => []⟩, fun _ => none) := .start ⟨rfl, rfl⟩
  exact h0.exec_watch hr

/-- `init` calls `sleep` on hart 0, with interrupts on.  A tick wakes it up, and hart 1
resumes it: when it has released its lock, interrupts are on again. -/
theorem interrupts_restored_elsewhere : ∃ (f f' : Fine 2) (g : Thread 2 → Option First),
    ((fineSystem 2).watch (fun _ => none) Fine.note).Reachable (f, g) ∧ f.base.cur 1 = some 0 ∧
      LastUnlock f g 1 (some ⟨true, true⟩) ∧ f.next 1 (.step .go) = some f' ∧
        (f'.base.cpus 1).sie = true := by
  have hrun : (fineRun (fineGoes (0 : Fin 2) 13 ++ [(0, .step (.sleep 1))] ++ fineGoes 0 18 ++
      [(0, .step .timer)] ++ fineGoes 0 14 ++ fineGoes 1 12)).map
        (fun x => (x.1.stage 1, x.1.base.cur 1, x.1.base.pcOf 1, x.2 (.proc 0))) =
      some (.unlockPop, some 0, .acq .ticks (.sleepLoop 0 1 0), some ⟨true, true⟩) := by
    decide +kernel
  obtain ⟨⟨f, g⟩, hx, he⟩ := Option.map_eq_some_iff.1 hrun
  simp only [Prod.mk.injEq] at he
  obtain ⟨hst, hcur, hpc, hg⟩ := he
  have hr := reachable_fineRun hx
  obtain ⟨C, gs, hs⟩ := sim_reachable hr
  have hth : f.base.thread 1 = .proc 0 := State.thread_some hcur
  have hu : LastUnlock f g 1 (some ⟨true, true⟩) := by
    refine ⟨hst, fun l hl => ?_, hth ▸ hg⟩
    have hm := (hs.locks_iff 1 l).1 hl
    rw [hpc] at hm
    simp at hm
  have hn : f.next 1 (.step .go) = some (f.pop 1) := by
    simp [Fine.next, Fine.go, hst]
  refine ⟨f, f.pop 1, g, hr, hcur, hu, hn, ?_⟩
  exact ((interrupts_restored hr).2.2.2.1 1 ⟨true, true⟩ _ _ hu (by simp [hcur]) hn).2

/-- **A scheduler may come out of `unlock` with interrupts on, though it took the lock with
interrupts off**: `init` calls `sleep` with interrupts on, and the scheduler releases the lock
of `init` with the `intena` that `init` has left behind. -/
theorem scheduler_interruptible : ∃ (f f' : Fine 1) (g : Thread 1 → Option First),
    ((fineSystem 1).watch (fun _ => none) Fine.note).Reachable (f, g) ∧ f.base.cur 0 = none ∧
      LastUnlock f g 0 (some ⟨false, true⟩) ∧ f.next 0 (.step .go) = some f' ∧
        (f'.base.cpus 0).sie = true := by
  have hrun : (fineRun (fineGoes (0 : Fin 1) 13 ++ [(0, .step (.sleep 1))] ++ fineGoes 0 17)).map
        (fun x => (x.1.stage 0, x.1.base.cur 0, x.1.base.pcOf 0, x.1.base.cpus 0, x.2 (.sched 0))) =
      some (.unlockPop, none, .schedScan 1, ⟨1, true, false⟩, some ⟨false, true⟩) := by
    decide +kernel
  obtain ⟨⟨f, g⟩, hx, he⟩ := Option.map_eq_some_iff.1 hrun
  simp only [Prod.mk.injEq] at he
  obtain ⟨hst, hcur, hpc, hcpu, hg⟩ := he
  have hr := reachable_fineRun hx
  obtain ⟨C, gs, hs⟩ := sim_reachable hr
  have hth : f.base.thread 0 = .sched 0 := State.thread_none hcur
  refine ⟨f, f.pop 0, g, hr, hcur, ⟨hst, fun l hl => ?_, hth ▸ hg⟩, ?_, ?_⟩
  · have hm := (hs.locks_iff 0 l).1 hl
    rw [hpc] at hm
    simp at hm
  · simp [Fine.next, Fine.go, hst]
  · simp [Fine.pop, hcpu, popOff, State.setCpu]

end Wl00.Sched
