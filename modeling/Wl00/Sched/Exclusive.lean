import Wl00.Sched.Preserve

/-!
# One process, one hart

The scheduling invariant read off for the kernel stacks: a process never runs on
two harts, `p->state` says whether it is on one whenever `p->lock` is free, and
`releaseproc` only ever frees a stack that no hart is on (`stack_exclusive`).
-/

namespace Wl00.Sched

variable {n : Nat}

/-- The slot `releaseproc` is at work on, a `kfree` of its pages included. -/
def Pc.releasing : Pc → Option Slot
  | .release q _ _ => some q
  | .acq .mem k | .rel .mem k => releasing k
  | _ => none

namespace Pc

/-- Either the slot is one a failing `fork` has claimed or it is a zombie. -/
theorem claims_or_frees_of_releasing {k : Pc} {q : Slot} (hq : k.releasing = some q) :
    k.claims = some (q, false) ∨ k.frees = some q := by
  induction k with
  | release i r k _ => cases r <;> simp_all [releasing, claims, frees]
  | acq l k ih => cases l <;> simp_all [releasing, claims, frees]
  | rel l k ih => cases l <;> simp_all [releasing, claims, frees]
  | _ => simp [releasing] at hq

theorem plain_of_releasing {k : Pc} {q : Slot} (hq : k.releasing = some q) : k.plain := by
  induction k with
  | rel l k ih => cases l <;> simp_all [releasing, plain]
  | _ => simp_all [releasing, plain]

end Pc

namespace Inv

variable {s : State n}

/-- Whoever finds `p->lock` free finds the process in a `cpu->proc` exactly when
it is RUNNING. -/
theorem cproc_of_free (hi : Inv s) {p : Slot} (hl : s.locks (.proc p) = none) {h : Fin n}
    (hc : s.cproc h = some p) : (s.procs p).state = .running := by
  by_contra hr
  rw [(hi.lock h _).2 (hi.mem_locks_of_cproc hc hr)] at hl
  cases hl

/-- The slot being released is in no `cpu->proc`. -/
theorem not_cproc_of_releasing (hi : Inv s) {h : Fin n} {q : Slot}
    (hq : (s.pcOf h).releasing = some q) (h' : Fin n) : s.cproc h' ≠ some q := by
  rcases Pc.claims_or_frees_of_releasing hq with hc | hf
  · exact hi.not_cproc_of_new (hi.claim_own hc).1 h'
  · refine hi.not_cproc (Pc.mem_locks_of_frees (hi.wf h) hf) (Pc.plain_of_releasing hq) ?_ h'
    simp [hi.frees h q hf]

end Inv

/-- **A process never runs on two harts and its kernel stack is never freed
while in use.**  At most one hart executes on a slot's kernel stack; while
`p->lock` is free a process is RUNNING exactly when one hart has it in
`cpu->proc`, and otherwise none has; and while `releaseproc` runs on a slot no
hart is on its stack. -/
theorem stack_exclusive (s : State n) (hr : (system n).Reachable s) :
    (∀ p h h', s.cur h = some p → s.cur h' = some p → h = h') ∧
    (∀ p, s.locks (.proc p) = none →
      ((s.procs p).state = .running ↔ ∃! h, s.cproc h = some p) ∧
      ((s.procs p).state ≠ .running → ∀ h, s.cproc h ≠ some p)) ∧
    (∀ h q, (s.pcOf h).releasing = some q → ∀ h', s.cur h' ≠ some q) := by
  have hi := inv_reachable hr
  refine ⟨?_, ?_, ?_⟩
  · intro p h h' hp hp'
    exact hi.cur_inj hp hp'
  · intro p hl
    refine ⟨⟨?_, ?_⟩, ?_⟩
    · intro hrun
      obtain ⟨h, hc⟩ := hi.running p hrun
      exact ⟨h, hc, fun h' hc' => hi.uniq h' h p hc' hc⟩
    · rintro ⟨h, hc, -⟩
      exact hi.cproc_of_free hl hc
    · intro hrun h hc
      exact hrun (hi.cproc_of_free hl hc)
  · intro h q hq h' hu
    exact hi.not_cproc_of_releasing hq h' (hi.cur h' q hu).2

/-- On two harts, hart 0 dispatches `init` and calls `fork` while hart 1 looks
for something to run. -/
theorem stack_exclusive_dispatched : ∃ s : State 2, (system 2).Reachable s ∧
    s.cur 0 = some 0 ∧ s.cur 1 ≠ some 0 := by
  have hrun : (run (boot 2) (goes 0 7 ++ goes 1 3 ++
      [(0, .go), (0, .go), (0, .fork)])).map (·.cur 0) = some (some 0) := by
    decide +kernel
  obtain ⟨s, hs, h0⟩ := Option.map_eq_some_iff.1 hrun
  have hr := reachable_run (.start rfl) hs
  refine ⟨s, hr, h0, fun h1 => ?_⟩
  have := (stack_exclusive s hr).1 0 0 1 h0 h1
  simp at this

end Wl00.Sched
