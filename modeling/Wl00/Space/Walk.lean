import Wl00.Space.Alloc
import Wl00.Vm.Table

/-!
# The functions of `vm.c`, whatever there is in memory

Nothing is said here about what a page table stands for.  The code is run once, and whoever
uses a rule brings the invariant: `Wl00.Space.Table` and `Wl00.Space.User` for the spaces of
the kernel, `Wl00.Space.Lookup` and `Wl00.Space.Grow` for tables as they stand in memory.

* `wp_findPte`, `wp_findPteAlloc`, `wp_findUserPa` — the walk through a table.
* `wp_mappage`, `wp_unmapPage` — one page.
* `mappages_rule`, `uvmunmap_rule`, `uvmalloc_rule` — the loops.
-/

namespace Wl00.Vm

open Prog

variable {L : Layout} {s s' : Mem L} {pt va u : Nat}

/-! ## Bits -/

theorem vpn1_eq {va : Nat} (hva : va < 2 ^ 32) : vpn1 va = va / 4096 / 1024 := by
  rw [vpn1, Nat.shiftRight_eq_div_pow, show 0x3ff = 2 ^ 10 - 1 from rfl,
    Nat.and_two_pow_sub_one_eq_mod]
  omega

theorem vpn0_eq (va : Nat) : vpn0 va = va / 4096 % 1024 := by
  rw [vpn0, Nat.shiftRight_eq_div_pow, show 0x3ff = 2 ^ 10 - 1 from rfl,
    Nat.and_two_pow_sub_one_eq_mod]

theorem pte2pa_eq (w : Nat) : pte2pa w = w / 1024 % 2 ^ 20 * 4096 := by
  rw [pte2pa, Nat.shiftRight_eq_div_pow, Nat.shiftLeft_eq]
  omega

theorem and_one_ne (w : Nat) : w &&& 1 ≠ 0 ↔ w % 2 = 1 := by
  rw [Nat.and_one_is_mod]
  omega

/-- The entry that maps page `q` with flags `f`. -/
theorem mkPte_eq {q f : Nat} (hf : f < 1024) :
    pa2pte (q * 4096) ||| f ||| PTE_V = q * 1024 + (f ||| 1) := by
  have h1 : f ||| 1 < 2 ^ 10 := Nat.or_lt_two_pow hf (by decide)
  rw [pa2pte, Nat.shiftRight_eq_div_pow, Nat.or_assoc, show q * 4096 / 2 ^ 12 = q by omega,
    ← Nat.shiftLeft_add_eq_or_of_lt h1, Nat.shiftLeft_eq]

theorem mkPte1_eq (q : Nat) : pa2pte (q * 4096) ||| PTE_V = q * 1024 + 1 := by
  rw [pa2pte, Nat.shiftRight_eq_div_pow, show q * 4096 / 2 ^ 12 = q by omega,
    ← Nat.shiftLeft_add_eq_or_of_lt (by decide), Nat.shiftLeft_eq]

theorem or_one_mod (f : Nat) : (f ||| 1) % 2 = 1 := by
  simp

/-! ## `find_pte` -/

/-- What `find_pte(pt, va, 0)` returns. -/
def pteAddr (m : Bytes) (pt va : Nat) : Nat :=
  if m.word (pt + 4 * vpn1 va) &&& PTE_V ≠ 0 then
    pte2pa (m.word (pt + 4 * vpn1 va)) + 4 * vpn0 va
  else 0

/-- The entry that `find_pte` finds for `va`, and 0 where it finds none. -/
def entryAt (m : Bytes) (pt va : Nat) : Nat :=
  if pteAddr m pt va = 0 then 0 else m.word (pteAddr m pt va)

/-- Entry `i` of the root at `pt`. -/
abbrev rootEntry (m : Bytes) (pt i : Nat) : Nat := m.word (pt + 4 * i)

theorem pteAddr_eq {m : Bytes} (hva : va < 2 ^ 32) : pteAddr m pt va =
    if rootEntry m pt (va / 4096 / 1024) % 2 = 1 then
      pte2pa (rootEntry m pt (va / 4096 / 1024)) + 4 * (va / 4096 % 1024)
    else 0 := by
  unfold pteAddr
  rw [vpn1_eq hva, vpn0_eq, PTE_V]
  exact if_congr (and_one_ne _) rfl rfl

theorem entryAt_page {m : Bytes} (hva : va < 2 ^ 32) (hu : u < 2 ^ 32)
    (he : u / 4096 = va / 4096) : entryAt m pt u = entryAt m pt va := by
  rw [entryAt, entryAt, pteAddr_eq hu, pteAddr_eq hva, he]

theorem findPte_run (pt va : Nat) (s : Mem L) :
    findPte pt va false s = .ok (pteAddr s.bytes pt va, s) := by
  have h : wp (findPte pt va false) (fun a s' => a = pteAddr s.bytes pt va ∧ s' = s) s := by
    unfold findPte pteAddr
    rw [wp_bind, wp_load]
    split
    · rw [wp_pure]
      exact ⟨rfl, rfl⟩
    · rw [if_pos rfl, wp_pure]
      exact ⟨rfl, rfl⟩
  obtain ⟨a, s', hr, rfl, rfl⟩ := wp_iff.1 h
  exact hr

theorem wp_findPte {Q : Nat → Mem L → Prop} :
    wp (findPte pt va false) Q s ↔ Q (pteAddr s.bytes pt va) s := by
  rw [wp_iff, findPte_run]
  constructor
  · rintro ⟨a, s', he, hq⟩
    cases he
    exact hq
  · exact fun hq => ⟨_, _, rfl, hq⟩

/-- A second-level table is added: page `t` was free and is now in use and full of zeros. -/
structure NewTable (s s' : Mem L) (t : Nat) : Prop where
  free : s.free t
  zeroed : Zeroed s'.bytes t
  frame : Frame s s' ∅ {t}

/-- **`find_pte` with `alloc`** finds a second-level table, has no memory for one, or adds one. -/
theorem wp_findPteAlloc {Q : Nat → Mem L → Prop} (hva : va < 2 ^ 32)
    (hfound : rootEntry s.bytes pt (va / 4096 / 1024) % 2 = 1 → Q (pteAddr s.bytes pt va) s)
    (hfull : (∀ p, ¬s.free p) → Q 0 s)
    (hnew : ∀ t s₁, rootEntry s.bytes pt (va / 4096 / 1024) % 2 = 0 → NewTable s s₁ t →
      Q (t * 4096 + 4 * (va / 4096 % 1024))
        (s₁.mapBytes (·.storeWord (pt + 4 * (va / 4096 / 1024)) (t * 1024 + 1)))) :
    wp (findPte pt va true) Q s := by
  unfold findPte
  rw [wp_bind, wp_load, vpn1_eq hva, vpn0_eq]
  by_cases hv : rootEntry s.bytes pt (va / 4096 / 1024) % 2 = 1
  · have hq := hfound hv
    rw [pteAddr_eq hva, if_pos hv] at hq
    rw [if_pos ((and_one_ne _).2 hv), wp_pure]
    exact hq
  · rw [if_neg (mt (and_one_ne _).1 hv), if_neg (by decide), wp_bind]
    refine (kalloc_spec s).mono fun pa s₁ hk => ?_
    rcases hk with ⟨rfl, rfl, hnone⟩ | ⟨t, rfl, hfree, -, hf⟩
    · rw [if_pos rfl, wp_pure]
      exact hfull hnone
    · have htl := hfree.inRange.lt
      rw [if_neg (by omega), wp_bind, wp_memset, wp_bind, wp_store, wp_pure, mkPte1_eq]
      refine hnew t _ (by omega) ⟨hfree, fun o ho => ?_, hf.trans (frame_fill (hf.held' t rfl))⟩
      rw [Mem.bytes_mapBytes, Bytes.fill_apply, if_pos (by simp only [PAGE_SIZE]; omega)]

/-! ## `find_user_pa` -/

/-- Where the table at `pt` translates `va` to. -/
def physical (m : Bytes) (pt va : Nat) : Nat := pte2pa (entryAt m pt va) + va % PAGE_SIZE

/-- The page of `va` is valid with `PTE_U` and the bits `need`. -/
def Access (m : Bytes) (pt need va : Nat) : Prop :=
  entryAt m pt va &&& (PTE_V ||| PTE_U ||| need) = PTE_V ||| PTE_U ||| need

instance (m : Bytes) (pt need va : Nat) : Decidable (Access m pt need va) :=
  inferInstanceAs (Decidable (_ = _))

theorem user_mask_ne (need : Nat) : PTE_V ||| PTE_U ||| need ≠ 0 := by
  intro h
  have := Nat.left_le_or (n := PTE_V ||| PTE_U) (m := need)
  rw [h] at this
  exact absurd this (by decide)

/-- `find_user_pa` as a function. -/
theorem wp_findUserPa {need : Nat} {Q : Nat → Mem L → Prop} : wp (findUserPa pt va need) Q s ↔
    Q (if Access s.bytes pt need va then physical s.bytes pt va else 0) s := by
  have hoff : va &&& 0xFFF = va % 4096 := Nat.and_two_pow_sub_one_eq_mod va 12
  unfold findUserPa
  rw [wp_bind, wp_findPte]
  by_cases ha : pteAddr s.bytes pt va = 0
  · have hno : ¬Access s.bytes pt need va := by
      rw [Access, entryAt, if_pos ha, Nat.zero_and]
      exact (user_mask_ne need).symm
    rw [if_pos ha, wp_pure, if_neg hno]
  · have hw : s.bytes.word (pteAddr s.bytes pt va) = entryAt s.bytes pt va := by
      rw [entryAt, if_neg ha]
    rw [if_neg ha, wp_bind, wp_load, hw]
    split
    · next hno =>
      have hacc : ¬Access s.bytes pt need va := hno
      rw [wp_pure, if_neg hacc]
    · next hyes =>
      have hacc : Access s.bytes pt need va := not_not.1 hyes
      rw [wp_pure, if_pos hacc, hoff]
      rfl

/-! ## Mapping -/

/-- **`mappage`** stores an entry where `find_pte` has found room for it. -/
theorem wp_mappage {pa flags : Nat} {Q : Nat → Mem L → Prop} (hva : va % 4096 = 0)
    (hpa : pa % 4096 = 0)
    (h : wp (findPte pt va true) (fun a s₁ => (a = 0 ∧ Q 0 s₁) ∨
      (a ≠ 0 ∧ s₁.bytes.word a % 2 = 0 ∧
        Q a (s₁.mapBytes (·.storeWord a (pa2pte pa ||| flags ||| PTE_V))))) s) :
    wp (mappage pt va pa flags) Q s := by
  unfold mappage
  rw [if_neg (not_not.2 hva), if_neg (not_not.2 hpa), wp_bind]
  refine h.mono fun a s₁ ha => ?_
  rcases ha with ⟨rfl, hq⟩ | ⟨hne, hz, hq⟩
  · rw [if_pos rfl, wp_pure]
    exact hq
  · rw [if_neg hne, wp_bind, wp_load, if_neg (by rw [PTE_V, and_one_ne]; omega), wp_bind, wp_store,
      wp_pure]
    exact hq

variable {a v q f n : Nat}

/-- **The loop of `mappages`**, which may go round the end of the address space.  After `k`
rounds `I k` holds; when there is no memory in round `k`, `E k` does. -/
theorem mappages_rule {I E : Nat → Mem L → Prop} (hv : v < 2 ^ 20) (hq : q < 2 ^ 20) (hn : 0 < n)
    (hn' : n < 2 ^ 20) (hI : I 0 s)
    (hstep : ∀ k < n, ∀ s₁, I k s₁ →
      wp (mappage pt ((v + k) % 2 ^ 20 * 4096) ((q + k) % 2 ^ 20 * 4096) f) (fun a s₂ =>
        (a = 0 ∧ E k s₂) ∨ (a ≠ 0 ∧ I (k + 1) s₂)) s₁) :
    wp (mappages pt (v * 4096) (q * 4096) (n * 4096) f) (fun r s' =>
      (r = -1 ∧ ∃ k < n, E k s') ∨ (r = 0 ∧ I n s')) s := by
  unfold mappages mappagesLoop
  simp only [PAGE_SIZE]
  rw [if_neg (by omega), if_neg (by omega), if_neg (by omega), if_neg (by omega)]
  refine wp_loop (fun x s₁ => ∃ k, k ≤ n ∧
      x = ((v + k) % 2 ^ 20 * 4096, (q + k) % 2 ^ 20 * 4096) ∧ I k s₁)
    (fun x => (v + 2 ^ 20 + n - x.1 / 4096) % 2 ^ 20) ?_ ⟨0, by omega, ?_, hI⟩ ?_
  · rintro ⟨curr, pa⟩ s₁ ⟨k, hk, hx, hI₁⟩
    obtain ⟨rfl, rfl⟩ := Prod.mk.injEq .. |>.mp hx
    simp only
    by_cases hkn : k = n
    · subst hkn
      rw [if_neg (by omega), wp_pure]
      exact .inr ⟨rfl, hI₁⟩
    · rw [if_pos (by omega), wp_bind]
      refine (hstep k (by omega) s₁ hI₁).mono fun a s₂ ha => ?_
      rcases ha with ⟨rfl, hE⟩ | ⟨hne, hI₂⟩
      · rw [if_pos rfl, wp_pure]
        exact .inl ⟨rfl, k, by omega, hE⟩
      · rw [if_neg hne, wp_pure]
        refine ⟨⟨k + 1, by omega, ?_, hI₂⟩, ?_⟩
        · simp only [Prod.mk.injEq]
          omega
        · simp only
          omega
  · simp only [Prod.mk.injEq]
    omega
  · simp only [rounds]
    omega

/-- `mappages` of one page is `mappage`. -/
theorem mappages_once {Q : Int → Mem L → Prop} (hv : v < 2 ^ 20) (hq : q < 2 ^ 20)
    (h : wp (mappage pt (v * 4096) (q * 4096) f) (fun a s₁ =>
      (a = 0 ∧ Q (-1) s₁) ∨ (a ≠ 0 ∧ Q 0 s₁)) s) :
    wp (mappages pt (v * 4096) (q * 4096) PAGE_SIZE f) Q s := by
  rw [show PAGE_SIZE = 1 * 4096 from rfl]
  refine (mappages_rule (E := fun _ => Q (-1)) (I := fun k s₁ => if k = 0 then s₁ = s else Q 0 s₁)
    hv hq Nat.one_pos (by decide) rfl fun k hk s₁ hI => ?_).mono fun r s' hr => ?_
  · obtain rfl : k = 0 := by omega
    obtain rfl : s₁ = s := hI
    rw [Nat.add_zero, Nat.add_zero, Nat.mod_eq_of_lt hv, Nat.mod_eq_of_lt hq]
    exact h
  · rcases hr with ⟨rfl, -, -, hr⟩ | ⟨rfl, hr⟩
    · exact hr
    · exact hr

/-! ## Unmapping -/

/-- **One page of `uvmunmap`**: a page that is not mapped is passed over. -/
theorem wp_unmapPage {b : Bool} {Q : Unit → Mem L → Prop} : wp (unmapPage pt va b) Q s ↔
    if entryAt s.bytes pt va % 2 = 0 then Q () s
    else wp (if b = true then kfree (pte2pa (entryAt s.bytes pt va)) else pure ()) (fun _ s₁ =>
      Q () (s₁.mapBytes (·.storeWord (pteAddr s.bytes pt va) 0))) s := by
  unfold unmapPage
  rw [wp_bind, wp_findPte]
  by_cases ha : pteAddr s.bytes pt va = 0
  · rw [if_pos ha, wp_pure, entryAt, if_pos ha, if_pos rfl]
  · have hw : s.bytes.word (pteAddr s.bytes pt va) = entryAt s.bytes pt va := by
      rw [entryAt, if_neg ha]
    have hst : wp (store (pteAddr s.bytes pt va) 0) Q = fun s₁ =>
        Q () (s₁.mapBytes (·.storeWord (pteAddr s.bytes pt va) 0)) :=
      funext fun s₁ => propext (wp_store _ _)
    rw [if_neg ha, wp_bind, wp_load, hw, PTE_V, Nat.and_one_is_mod]
    split_ifs
    · rw [wp_pure]
    · rw [wp_bind]
      simp only [hst]
    · change wp (store _ _) Q s ↔ _
      rw [hst, wp_pure]

/-- **The loop of `uvmunmap`**, where the range ends before the end of the address space. -/
theorem uvmunmap_rule {b : Bool} {I : Nat → Mem L → Prop} (hn : a + n < 2 ^ 20) (hI : I 0 s)
    (hstep : ∀ k < n, ∀ s₁, I k s₁ →
      wp (unmapPage pt ((a + k) * 4096) b) (fun _ s₂ => I (k + 1) s₂) s₁) :
    wp (uvmunmap pt (a * 4096) (n * 4096) b) (fun _ s' => I n s') s := by
  unfold uvmunmap unmapLoop
  simp only [PAGE_SIZE]
  rw [if_neg (by omega), show (a * 4096 + n * 4096) % 2 ^ 32 = (a + n) * 4096 by omega]
  refine wp_loop (fun curr s₁ => ∃ k, k ≤ n ∧ curr = (a + k) * 4096 ∧ I k s₁)
    (fun curr => (a + n) * 4096 - curr) ?_ ⟨0, by omega, rfl, hI⟩ (by simp only [rounds]; omega)
  rintro _ s₁ ⟨k, hk, rfl, hI₁⟩
  by_cases hkn : k = n
  · subst hkn
    rw [if_neg (by omega), wp_pure]
    exact hI₁
  · rw [if_pos (by omega), wp_bind]
    refine (hstep k (by omega) s₁ hI₁).mono fun _ s₂ hI₂ => ?_
    rw [wp_pure]
    exact ⟨⟨k + 1, by omega, by omega, hI₂⟩, by omega⟩

/-! ## `uvmalloc` -/

/-- **The loop of `uvmalloc`.**  After `k` rounds `I k` holds, which does not depend on pages
that are free.  When there is no memory, or only one page and none for a second-level table,
what has been mapped is taken out again, and `R` holds. -/
theorem uvmalloc_rule {oldsz newsz xperm : Nat} {I : Nat → Mem L → Prop} {R : Mem L → Prop}
    (hle : oldsz ≤ newsz) (ha : pgRoundUp oldsz = a * 4096) (hn : a + n < 2 ^ 20)
    (hnew : ∀ k, (a + k) * 4096 < newsz ↔ k < n) (hI : I 0 s)
    (hframe : ∀ k s₁ s₂, I k s₁ → Frame s₁ s₂ ∅ ∅ → I k s₂)
    (hmap : ∀ k < n, ∀ s₁ s₂ q, I k s₁ → s₁.free q → Frame s₁ s₂ ∅ {q} → Zeroed s₂.bytes q →
      wp (mappage pt ((a + k) * 4096) (q * 4096) (PTE_R ||| PTE_U ||| xperm)) (fun r s₃ =>
        (r = 0 ∧ s₃ = s₂ ∧ ∀ p, ¬s₂.free p) ∨ (r ≠ 0 ∧ I (k + 1) s₃)) s₂)
    (hundo : ∀ k < n, ∀ s₁, I k s₁ → Few s₁.free 1 →
      wp (uvmunmap pt (a * 4096) (k * 4096) true) (fun _ s' => R s') s₁) :
    wp (uvmalloc pt oldsz newsz xperm) (fun r s' => (r = newsz ∧ I n s') ∨ (r = 0 ∧ R s')) s := by
  unfold uvmalloc uvmallocLoop
  rw [if_neg (by omega), ha]
  refine wp_loop (fun curr s₁ => ∃ k, k ≤ n ∧ curr = (a + k) * 4096 ∧ I k s₁)
    (fun curr => (a + n) * 4096 - curr) ?_ ⟨0, by omega, rfl, hI⟩ (by simp only [rounds]; omega)
  rintro _ s₁ ⟨k, hk, rfl, hI₁⟩
  by_cases hkn : k < n
  · rw [if_pos ((hnew k).2 hkn), wp_bind, show (a + k) * 4096 - a * 4096 = k * 4096 by omega]
    refine (kalloc_spec s₁).mono fun mem s₂ hm => ?_
    rcases hm with ⟨rfl, rfl, hfull⟩ | ⟨q, rfl, hq, -, hf₂⟩
    · rw [if_pos rfl, wp_bind]
      refine (hundo k hkn s₂ hI₁ ((Few.none hfull).mono (by omega))).mono fun _ s₃ hR => ?_
      rw [wp_pure]
      exact .inr ⟨rfl, hR⟩
    · have hql := hq.inRange.lt
      have hf₃ := hf₂.trans (frame_fill (hf₂.held' q rfl))
      rw [if_neg (by omega), wp_bind, wp_memset, wp_bind]
      refine mappages_once (by omega) (by omega)
        ((hmap k hkn s₁ _ q hI₁ hq hf₃ fun o ho => ?_).mono fun r s₄ hr => ?_)
      · rw [Mem.bytes_mapBytes, Bytes.fill_apply, if_pos (by omega)]
      rcases hr with ⟨rfl, rfl, hfull⟩ | ⟨hne, hI₂⟩
      · -- the new page was the last one, and goes back first
        refine .inl ⟨rfl, ?_⟩
        rw [if_pos (by decide), wp_bind]
        refine (kfree_spec hq.inRange (hf₃.held' q rfl)).mono fun _ s₅ hkf => ?_
        have hf₅ := hf₃.trans hkf.1
        have hfew : Few s₅.free 1 :=
          ⟨{q}, by simp, fun p hp => Finset.mem_singleton.2 <|
            ((hkf.1.free_iff p).1 hp).1.resolve_left (hfull p)⟩
        rw [wp_bind]
        refine (hundo k hkn s₅ (hframe k s₁ s₅ hI₁ hf₅) hfew).mono fun _ s₆ hR => ?_
        rw [wp_pure]
        exact .inr ⟨rfl, hR⟩
      · refine .inr ⟨hne, ?_⟩
        rw [if_neg (by decide), wp_pure,
          show ((a + k) * 4096 + PAGE_SIZE) % 2 ^ 32 = (a + (k + 1)) * 4096 by
            simp only [PAGE_SIZE]; omega]
        exact ⟨⟨k + 1, by omega, rfl, hI₂⟩, by omega⟩
  · obtain rfl : k = n := by omega
    rw [if_neg (mt (hnew k).1 hkn), wp_pure]
    exact .inl ⟨rfl, hI₁⟩

end Wl00.Vm
