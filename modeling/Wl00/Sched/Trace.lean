import Wl00.Sched.Family

/-!
# What a step shows

The event of a step is a function of the point its hart leaves and the point it
goes to (`emit_eq`), so that a proof about the history of a run can follow the
same case split as a proof about its states.
-/

namespace Wl00.Sched

variable {n : Nat}

/-- The event of a step from the first point to the second. -/
def eventOf (s : State n) : Pc → Pc → Event
  | .user, .acq .wait (.waitScan p addr _ _) => .waitCall p addr
  | .user, .mm (.acq .wait (.exitScan p st _)) => .exit p st
  | .sysret c p v, .utrapret => .ret c p v
  | .paCheck _ i, .rel _ (.acq _ _) => .claim i
  | .paPid _ _, _ => .allocpid s.currPid
  | .release _ _ _, .acq _ _ => .tau
  | .release q r _, _ => .release q r (s.procs q).pid
  | .waitCopyout p addr _ _ x, .release _ _ _ => .store p addr x
  | .exitHand p _ r i _, _ => .hand p i (s.procs i).parent r
  | _, _ => .tau

/-- A timer interrupt shows nothing. -/
theorem eventOf_timer {s : State n} {h : Fin n} {pc : Pc} {t o : Option Slot} (hw : pc.Wf t)
    (hl : pc.locks = ∅) (hp : pc ≠ .user) :
    eventOf s pc (clockintr h (.trapYield o (.sret pc))) = .tau := by
  have hk : ∀ k, (∃ k', k = .acq .ticks (.clockTick k')) ∨ (∃ k', k = .trapYield o k') →
      eventOf s pc k = .tau := by
    rintro k (⟨k', rfl⟩ | ⟨k', rfl⟩) <;> cases pc
    case inr.release q r k =>
      have hq := hw.2.spec.2.2.1
      simp [show k.locks = ∅ from hl] at hq
    all_goals first | rfl | simp_all
  unfold clockintr
  split
  · exact hk _ (.inl ⟨_, rfl⟩)
  · exact hk _ (.inr ⟨_, rfl⟩)

theorem emit_eq {s s' : State n} {h : Fin n} {c : Choice} (hi : Inv s)
    (hn : next s h c = some s') : emit s h c = eventOf s (s.pcOf h) (s'.pcOf h) := by
  by_cases hc : c = .timer
  · subst hc
    simp only [next, timer] at hn
    unfold emit
    rw [if_pos rfl]
    split at hn
    · next hsie =>
      have hl := hi.locks_eq_empty hsie
      split at hn
      · next hu =>
        rw [hu]
        split at hn <;> cases hn <;> rw [State.pcOf_setPc_self]
        · rfl
        · unfold clockintr
          split <;> rfl
      · next hu =>
        cases hn
        rw [State.pcOf_setPc_self]
        exact (eventOf_timer (hi.wf h) hl hu).symm
    · cases hn
  · have hg : go s h c = some s' := by
      cases c <;> first | exact hn | exact absurd rfl hc
    unfold emit
    rw [if_neg hc]
    clear hn
    have hw := hi.wf h
    cases hp : s.pcOf h <;> simp only [go, hp] at hg ⊢
    case user =>
      unfold trap at hg
      rcases ho : s.cproc h with - | p <;> simp only [ho] at hg ⊢
      · cases hg; simp [eventOf]
      · cases c <;> simp only [reduceCtorEq] at hg <;> try cases hg
        case sleep m => split at hg <;> cases hg <;> simp [eventOf]
        all_goals simp [eventOf]
    case sysret c p v => cases hg; simp [eventOf]
    case paCheck p i =>
      split at hg <;> cases hg <;> simp_all [eventOf]
    case paPid p i => rfl
    case release q r k =>
      rw [hp] at hw
      obtain ⟨k', rfl⟩ : ∃ k', k = .rel (.proc q) k' := by
        cases r with
        | wait p => obtain ⟨v, rfl⟩ := hw.2; exact ⟨_, rfl⟩
        | kexit p => obtain ⟨st, g, rfl⟩ := hw.2; exact ⟨_, rfl⟩
        | sched => exact ⟨_, hw.2⟩
        | fail p => exact ⟨_, hw.2⟩
      split at hg
      · next hm => cases hg; simp [hm, eventOf]
      · next hm => split at hg <;> cases hg <;> simp [hm, eventOf]
    case waitCopyout p addr i pid x =>
      split at hg <;> cases hg <;> simp_all [eventOf, reap]
    case exitHand p st r i g => rfl
    all_goals rfl

end Wl00.Sched
