import Wl00.Boot.Refine

/-!
# The way of a hart to `scheduler`

What each statement between reset and `scheduler` does to the hart that executes it, and to the
others.

* `inSection_suffix`, `wait_suffix`, ... — the order of the statements.
* `Ready` — what a hart has set up so far.
* `exec_shares` — of what the harts share, a statement changes `print_lock` at most.
* `Move`, `step_move` — what a step can be.
-/

namespace Wl00.Boot

open Vm (Layout Kernel KernelM Programs NCPU Hart Ends makeSatp)
open Sched (Slot Lock NPROC)

variable {L : Layout} {progs : Programs}

/-! ## The programs -/

/-- Inside `printf`, with `print_lock` -/
def inSection : List Stmt → Bool
  | .puts _ :: _ | .unlockPrint :: _ => true
  | _ => false

/-- What hart 0 has still to do to memory. -/
def rest (progs : Programs) : List Stmt → KernelM L Unit
  | [] => pure ()
  | x :: xs => do
      x.work progs
      rest progs xs

/-- After `.bss` has been cleared, hart 0 does what `Vm.boot` does. -/
theorem rest_program : rest (L := L) progs (program 0).tail = Vm.boot progs := by
  simp [program, printf, rest, Stmt.work, Vm.boot]

/-- A check of every statement with what follows it. -/
theorem of_suffix (p : Hart → Stmt → List Stmt → Bool)
    (hall : ∀ tp, (program tp).tails.all fun l => match l with
      | [] => true
      | x :: xs => p tp x xs)
    {tp : Hart} {x : Stmt} {xs : List Stmt} (h : x :: xs <:+ program tp) : p tp x xs = true :=
  List.all_eq_true.1 (hall tp) _ ((List.mem_tails _ _).2 h)

section Suffix

variable {tp : Hart} {x : Stmt} {xs : List Stmt}

/-- `lock` leads into the section, and `unlock` out of it. -/
theorem inSection_suffix (h : x :: xs <:+ program tp) :
    inSection xs = true ↔ x = .lockPrint ∨ ∃ line, x = .puts line := by
  have hc := of_suffix (fun _ x xs => inSection xs == match x with
    | .lockPrint | .puts _ => true
    | _ => false) (by decide) h
  rw [beq_iff_eq] at hc
  rw [hc]
  cases x <;> simp

/-- `.bss` is cleared once. -/
theorem zeroBss_suffix (h : x :: xs <:+ program tp) :
    .zeroBss ∉ xs ∧ (x = .zeroBss → tp = 0 ∧ xs = (program 0).tail) := by
  have hc := of_suffix (fun tp x xs => decide (.zeroBss ∉ xs ∧
    (x = .zeroBss → tp = 0 ∧ xs = (program 0).tail))) (by decide) h
  exact of_decide_eq_true hc

/-- Paging is turned on after the table has been made. -/
theorem kptable_suffix (h : x :: xs <:+ program tp) (hx : x = .initKptable) : .initKvmhart ∈ xs := by
  have hc := of_suffix (fun _ x xs => decide (x = .initKptable → .initKvmhart ∈ xs)) (by decide) h
  exact of_decide_eq_true hc hx

/-- `init` is set at the end of hart 0's program. -/
theorem publish_suffix (h : x :: xs <:+ program 0) : x = .publish ∧ xs = [] ∨
    x ≠ .publish ∧ x ≠ .waitInit ∧ .publish ∈ xs := by
  have hc := of_suffix (fun tp x xs => decide (tp = 0 → x = .publish ∧ xs = [] ∨
    x ≠ .publish ∧ x ≠ .waitInit ∧ .publish ∈ xs)) (by decide) h
  exact of_decide_eq_true hc rfl

/-- The other harts do nothing that is hart 0's. -/
theorem mate_suffix (h : x :: xs <:+ program tp) (htp : tp ≠ 0) : x ≠ .publish ∧ x ≠ .zeroBss ∧
    x ≠ .initBitmap ∧ x ≠ .initKptable ∧ x ≠ .initClock ∧ x ≠ .initProctable ∧ x ≠ .initUserproc := by
  have hc := of_suffix (fun tp x _ => decide (tp ≠ 0 → x ≠ .publish ∧ x ≠ .zeroBss ∧
    x ≠ .initBitmap ∧ x ≠ .initKptable ∧ x ≠ .initClock ∧ x ≠ .initProctable ∧
    x ≠ .initUserproc)) (by decide) h
  exact of_decide_eq_true hc htp

/-- They wait before they set anything up. -/
theorem wait_suffix (h : x :: xs <:+ program tp) (hw : .waitInit ∈ x :: xs) :
    (x = .boot ∧ .waitInit ∈ xs ∨ x = .waitInit) ∧ .setId ∈ xs ∧ .initKvmhart ∈ xs ∧
      .initTrap ∈ xs := by
  have hc := of_suffix (fun _ x xs => decide (.waitInit ∈ x :: xs →
    (x = .boot ∧ .waitInit ∈ xs ∨ x = .waitInit) ∧ .setId ∈ xs ∧ .initKvmhart ∈ xs ∧
      .initTrap ∈ xs)) (by decide) h
  exact of_decide_eq_true hc hw

end Suffix

/-! ## One statement -/

/-- What the hart has set up when `todo` is still to come. -/
structure Ready (m : Machine L) (tp : Hart) (todo : List Stmt) : Prop where
  id : .setId ∉ todo → m.id tp = tp
  satp : .initKvmhart ∉ todo → m.satp tp = makeSatp m.kernel.kptable
  stvec : .initTrap ∉ todo → m.stvec tp = L.kerneltrap

section Exec

variable {m m' : Machine L} {tp : Hart} {x : Stmt} {xs : List Stmt}

theorem exec_point (hx : exec progs m tp x = .done m') : m'.point = m.point := by
  cases x <;> simp only [exec] at hx
  all_goals repeat' split at hx
  all_goals cases hx
  all_goals rfl

theorem exec_init (hx : exec progs m tp x = .done m') (hp : x ≠ .publish) : m'.init = m.init := by
  cases x <;> simp only [exec] at hx
  case publish => exact absurd rfl hp
  all_goals repeat' split at hx
  all_goals cases hx
  all_goals rfl

/-- The statement has done its work on the kernel. -/
theorem exec_kernel (hx : exec progs m tp x = .done m') (hz : x ≠ .zeroBss) :
    x.work progs m.kernel = .ok ((), m'.kernel) := by
  cases x <;> simp only [exec] at hx
  case zeroBss => exact absurd rfl hz
  case initBitmap | initKptable | initProctable | initUserproc =>
    split at hx
    · next hk =>
      cases hx
      exact hk
    · cases hx
  all_goals repeat' split at hx
  all_goals cases hx
  all_goals rfl

/-- The registers of the other harts are their own. -/
theorem exec_regs (hx : exec progs m tp x = .done m') (hz : x ≠ .zeroBss) {t : Hart} (ht : t ≠ tp) :
    m'.id t = m.id t ∧ m'.satp t = m.satp t ∧ m'.stvec t = m.stvec t := by
  cases x <;> simp only [exec] at hx
  case zeroBss => exact absurd rfl hz
  all_goals repeat' split at hx
  all_goals cases hx
  all_goals simp [ht]

theorem work_kptable (hz : x ≠ .initKptable) {k k' : Kernel L}
    (hk : x.work progs k = .ok ((), k')) : k'.kptable = k.kptable := by
  have hfix : Vm.Fixes (x.work (L := L) progs) := by
    cases x <;> simp only [Stmt.work]
    case initKptable => exact absurd rfl hz
    case initBitmap => exact .onMem _
    case initProctable => exact fun k => (Vm.ends_modify _).2 rfl
    case initUserproc => exact .initUserproc
    all_goals exact .pure ()
  exact (hfix k).of_run hk

/-- The other harts are ready as before. -/
theorem Ready.other (hr : Ready m tp xs) {t : Hart} (ht : tp ≠ t)
    (hx : exec progs m t x = .done m') (hz : x ≠ .zeroBss) (hk : x ≠ .initKptable) :
    Ready m' tp xs := by
  obtain ⟨hid, hsatp, hstvec⟩ := exec_regs hx hz ht
  have hkpt := work_kptable hk (exec_kernel hx hz)
  exact ⟨fun h => hid.trans (hr.id h), fun h => by rw [hsatp, hkpt, hr.satp h],
    fun h => hstvec.trans (hr.stvec h)⟩

/-- The hart itself has one statement less to do. -/
theorem Ready.exec (hr : Ready m tp (x :: xs)) (hs : x :: xs <:+ program tp)
    (hx : exec progs m tp x = .done m') : Ready m' tp xs := by
  by_cases hz : x = .zeroBss
  · obtain ⟨-, rfl⟩ := (zeroBss_suffix hs).2 hz
    exact ⟨fun h => absurd (by decide) h, fun h => absurd (by decide) h,
      fun h => absurd (by decide) h⟩
  have hboot := of_decide_eq_true (of_suffix (fun _ x xs =>
    decide (x = .boot → .initKvmhart ∈ xs)) (by decide) hs)
  have hkpt : .initKvmhart ∉ xs → m'.kernel.kptable = m.kernel.kptable := fun h =>
    work_kptable (fun hk => h (kptable_suffix hs hk)) (exec_kernel hx hz)
  constructor
  · intro h
    cases x <;> simp only [Boot.exec] at hx
    case zeroBss => exact absurd rfl hz
    case setId =>
      cases hx
      simp
    all_goals repeat' split at hx
    all_goals cases hx
    all_goals exact hr.id (by simpa using h)
  · intro h
    rw [hkpt h]
    cases x <;> simp only [Boot.exec] at hx
    case zeroBss => exact absurd rfl hz
    case boot => exact absurd (hboot rfl) h
    case initKvmhart =>
      cases hx
      simp
    all_goals repeat' split at hx
    all_goals cases hx
    all_goals exact hr.satp (by simpa using h)
  · intro h
    cases x <;> simp only [Boot.exec] at hx
    case zeroBss => exact absurd rfl hz
    case initTrap =>
      cases hx
      simp
    all_goals repeat' split at hx
    all_goals cases hx
    all_goals exact hr.stvec (by simpa using h)

end Exec

/-! ## `print_lock` -/

/-- Is the hart inside `printf`? -/
def Point.busy : Point → Bool
  | .run _ todo => inSection todo
  | _ => false

/-- Has the hart still to come to `scheduler`? -/
def Point.boots : Point → Bool
  | .scheduler _ => false
  | _ => true

/-- A hart that boots holds `print_lock` inside `printf`, and nothing else. -/
structure Own (s : Sched.State NCPU) (h : Hart) (busy : Bool) : Prop where
  cpu : s.cpus h = ⟨if busy = true then 1 else 0, false, false⟩
  lock : ∀ l, s.locks l = some h ↔ l = .print ∧ busy = true

/-- The schedulers' state, without the harts that still boot. -/
def Machine.view (m : Machine L) : Sched.State NCPU := m.sched.mask fun h => (m.point h).boots

section Print

variable {m m' : Machine L} {tp : Hart} {x : Stmt} {xs : List Stmt}

/-- What a statement of hart `tp` may do to the state that all share: take `print_lock`, give it
back, or nothing. -/
structure Shares (s s' : Sched.State NCPU) (tp : Hart) (busy : Bool) : Prop where
  self : Own s' tp busy
  other : ∀ h, h ≠ tp → ∀ b, Own s h b → Own s' h b
  mask : ∀ B, B tp = true → s'.mask B = s.mask B

theorem Own.shares {s : Sched.State NCPU} {b : Bool} (ho : Own s tp b) : Shares s s tp b :=
  ⟨ho, fun _ _ _ => id, fun _ _ => rfl⟩

/-- `print_lock` and the bookkeeping of one hart have changed. -/
theorem shares_print {s : Sched.State NCPU} {o : Option Hart} {c : Spinlock.Cpu} {b : Bool}
    (hown : ∀ l, l ≠ .print → s.locks l ≠ some tp)
    (hs : s.locks .print = none ∨ s.locks .print = some tp) (ho : o = if b = true then some tp else none)
    (hc : c = ⟨if b = true then 1 else 0, false, false⟩) :
    Shares s ((s.setLock .print o).setCpu tp c) tp b := by
  constructor
  · refine ⟨by simp [Sched.State.setCpu, hc], fun l => ?_⟩
    by_cases hl : l = .print
    · subst hl
      cases b <;> simp [Sched.State.setCpu, Sched.State.setLock, ho]
    · simp [Sched.State.setCpu, Sched.State.setLock, hl, hown l hl]
  · intro h hh b' hb
    refine ⟨by simpa [Sched.State.setCpu, Sched.State.setLock, hh] using hb.cpu, fun l => ?_⟩
    rw [← hb.lock l]
    by_cases hl : l = .print
    · -- it is not that hart's before or after
      subst hl
      have h₁ : o ≠ some h := by
        rw [ho]
        cases b <;> simp [hh.symm]
      have h₂ : s.locks .print ≠ some h := by
        rcases hs with hs | hs <;> simp [hs, hh.symm]
      simp [Sched.State.setCpu, Sched.State.setLock, h₁, h₂]
    · simp [Sched.State.setCpu, Sched.State.setLock, hl]
  · intro B hB
    unfold Sched.State.mask
    congr 1
    · funext l
      by_cases hl : l = .print
      · subst hl
        have h₁ : o.filter (fun h => !B h) = none := by
          rw [ho]
          cases b <;> simp [hB]
        have h₂ : (s.locks .print).filter (fun h => !B h) = none := by
          rcases hs with hs | hs <;> simp [hs, hB]
        simp only [Sched.State.setCpu, Sched.State.setLock, Function.update_self, h₁, h₂]
      · simp [Sched.State.setCpu, Sched.State.setLock, hl]
    · funext h
      by_cases hh : h = tp
      · subst hh
        simp [hB]
      · simp [Sched.State.setCpu, Sched.State.setLock, hh]

theorem initLocks_eq {s : Sched.State NCPU} (h : ∀ l, x.inits l = true → s.locks l = none) :
    initLocks x s = s := by
  have hl : (fun l => if x.inits l = true then none else s.locks l) = s.locks := by
    funext l
    split
    · next hx => exact (h l hx).symm
    · rfl
  rw [initLocks, hl]

/-- Where the locks that a statement initializes are free, it leaves the shared state in order. -/
theorem exec_shares (hs : x :: xs <:+ program tp) (ho : Own m.sched tp (inSection (x :: xs)))
    (hl : ∀ l, x.inits l = true → m.sched.locks l = none) (ht : x = .initClock → m.sched.ticks = 0)
    (hz : x ≠ .zeroBss) (hp : x ≠ .publish) (hx : exec progs m tp x = .done m') :
    Shares m.sched m'.sched tp (inSection xs) := by
  have hin := inSection_suffix hs
  have hout : x ≠ .lockPrint → (∀ line, x ≠ .puts line) → inSection xs = false := by
    intro h₁ h₂
    rw [← Bool.not_eq_true, hin]
    simp [h₁, h₂]
  have hown : ∀ l, l ≠ .print → m.sched.locks l ≠ some tp := fun l hne hl =>
    hne ((ho.lock l).1 hl).1
  have hsame : m'.sched = m.sched → inSection (x :: xs) = inSection xs →
      Shares m.sched m'.sched tp (inSection xs) := by
    intro he hb
    rw [he, ← hb]
    exact ho.shares
  cases x <;> simp only [exec] at hx
  case zeroBss => exact absurd rfl hz
  case publish => exact absurd rfl hp
  case lockPrint =>
    have hxs : inSection xs = true := hin.2 (.inl rfl)
    split at hx
    · next hfree =>
      cases hx
      refine shares_print hown (.inl hfree) (by simp [hxs]) ?_
      rw [ho.cpu, hxs]
      rfl
    · split at hx <;> cases hx
  case unlockPrint =>
    have hxs : inSection xs = false := hout (by simp) (by simp)
    split at hx
    · next hmine =>
      rw [ho.cpu] at hx
      cases hx
      exact shares_print hown (.inr hmine) (by simp [hxs]) (by rw [hxs]; rfl)
    · cases hx
  case puts line =>
    cases hx
    exact hsame rfl (hin.2 (.inr ⟨line, rfl⟩)).symm
  case initClock =>
    cases hx
    refine hsame ?_ (hout (by simp) (by simp)).symm
    simp only [initLocks_eq hl, ← ht rfl]
  all_goals repeat' split at hx
  all_goals cases hx
  all_goals exact hsame (by simp [initLocks_eq hl]) (hout (by simp) (by simp)).symm

/-- On the way to `scheduler`, only the work on the kernel can panic. -/
theorem exec_panics (ho : Own m.sched tp (inSection (x :: xs)))
    (hx : exec progs m tp x = .panics) : ∃ e, x.work progs m.kernel = .error e := by
  cases x <;> simp only [exec] at hx
  case lockPrint =>
    split at hx
    · cases hx
    · next h hl =>
      split at hx
      · next hh =>
        rw [hh] at hl
        cases ((ho.lock _).1 hl).2
      · cases hx
  case unlockPrint =>
    have hmine : m.sched.locks .print = some tp := (ho.lock _).2 ⟨rfl, rfl⟩
    rw [if_pos hmine, ho.cpu] at hx
    cases hx
  case initBitmap | initKptable | initProctable | initUserproc =>
    split at hx
    · cases hx
    · next e he => exact ⟨e, he⟩
  all_goals repeat' split at hx
  all_goals cases hx

/-- The harts other than hart 0 have no work there. -/
theorem work_mate (hs : x :: xs <:+ program tp) (htp : tp ≠ 0) (k : Kernel L) :
    x.work progs k = .ok ((), k) := by
  obtain ⟨-, -, h₁, h₂, -, h₃, h₄⟩ := mate_suffix hs htp
  cases x <;> first | contradiction | rfl

theorem exec_kernel_mate (hs : x :: xs <:+ program tp) (htp : tp ≠ 0)
    (hx : exec progs m tp x = .done m') : m'.kernel = m.kernel := by
  have hw := (work_mate hs htp m.kernel).symm.trans (exec_kernel hx (mate_suffix hs htp).2.1)
  exact (congrArg Prod.snd (Except.ok.inj hw)).symm

end Print

/-! ## One step -/

/-- What a hart can do. -/
inductive Move (progs : Programs) (m : Machine L) (i : Nat) (a : Act L) : Machine L → Prop
  | enter (hp : m.point i = .entry) (hi : i < NCPU) :
      Move progs m i a (m.goto i (.run ⟨i, hi⟩ (program ⟨i, hi⟩)))
  | park (hp : m.point i = .entry) (hi : NCPU ≤ i) : Move progs m i a (m.goto i .park)
  | exec {tp : Hart} {x : Stmt} {xs : List Stmt} {m' : Machine L}
      (hp : m.point i = .run tp (x :: xs)) (hx : exec progs m tp x = .done m') :
      Move progs m i a (m'.goto i (.run tp xs))
  | panic {tp : Hart} {x : Stmt} {xs : List Stmt} (hp : m.point i = .run tp (x :: xs))
      (hx : Boot.exec progs m tp x = .panics) : Move progs m i a (m.goto i .panic)
  | join {tp : Hart} (hp : m.point i = .run tp []) : Move progs m i a (m.goto i (.scheduler tp))
  | sched {tp : Hart} {s : Sched.State NCPU} (hp : m.point i = .scheduler tp)
      (hn : Sched.next m.sched tp a.choice = some s) : Move progs m i a (m.follow tp s a.effect)

theorem step_move {m m' : Machine L} {i : Nat} {a : Act L}
    (hs : step progs m i a = some m') : Move progs m i a m' := by
  unfold step at hs
  split at hs
  · next hp =>
    cases hs
    split
    · exact .enter hp _
    · exact .park hp (by omega)
  · cases hs
  · cases hs
  · next hp =>
    cases hs
    exact .join hp
  · next hp =>
    split at hs
    · next hx =>
      cases hs
      exact .exec hp hx
    · cases hs
    · next hx =>
      cases hs
      exact .panic hp hx
  · next hp =>
    obtain ⟨s, hn, rfl⟩ := Option.map_eq_some_iff.1 hs
    exact .sched hp hn

@[simp] theorem point_goto_self (m : Machine L) (i : Nat) (p : Point) : (m.goto i p).point i = p := by
  simp [Machine.goto]

theorem point_goto_ne (m : Machine L) {i j : Nat} (p : Point) (h : j ≠ i) :
    (m.goto i p).point j = m.point j := by
  simp [Machine.goto, h]

end Wl00.Boot
