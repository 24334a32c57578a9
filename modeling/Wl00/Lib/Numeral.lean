import Mathlib.Data.Nat.Digits.Lemmas

/-!
# Numerals

A numeral in base `b` is read from its first digit on.  Canonical numerals have a minus sign
exactly for negative numbers and no leading zero; each integer has one of them.

* `parseNat_eq_some` — a numeral of `n` is a list of digits with value `n`.
* `canonical_numeral` — every integer has a canonical numeral.
* `Canonical.eq_numeral` — and no other one.
-/

namespace Numeral

/-- The digit with value `d`, for `d < 16` -/
def digitChar (d : Nat) : Char := .ofNat (if d < 10 then 48 + d else 87 + d)

/-- The value of a digit -/
def digitVal (c : Char) : Option Nat :=
  if '0' ≤ c ∧ c ≤ '9' then some (c.toNat - 48)
  else if 'a' ≤ c ∧ c ≤ 'f' then some (c.toNat - 87)
  else none

/-- Read digits, with `acc` in front of them. -/
def parseDigits (b acc : Nat) : List Char → Option Nat
  | [] => some acc
  | c :: cs =>
      match digitVal c with
      | some d => if d < b then parseDigits b (acc * b + d) cs else none
      | none => none

def parseNat (b : Nat) (s : List Char) : Option Nat := if s = [] then none else parseDigits b 0 s

def parseInt (b : Nat) : List Char → Option Int
  | '-' :: s => (parseNat b s).map fun n : Nat => -(n : Int)
  | s => (parseNat b s).map fun n : Nat => (n : Int)

/-- `s` is the canonical numeral of `z` in base `b`. -/
structure Canonical (b : Nat) (z : Int) (s : List Char) : Prop where
  sign : s.head? = some '-' ↔ z < 0
  lead : ∀ ds, s = '0' :: ds ∨ s = '-' :: '0' :: ds → s = ['0']
  parse : parseInt b s = some z

/-! ## Digits -/

theorem toNat_digitChar {d : Nat} (hd : d < 16) :
    (digitChar d).toNat = if d < 10 then 48 + d else 87 + d := by
  interval_cases d <;> rfl

theorem digitVal_digitChar {d : Nat} (hd : d < 16) : digitVal (digitChar d) = some d := by
  interval_cases d <;> rfl

theorem digitVal_eq_some {c : Char} {d : Nat} (hc : digitVal c = some d) : d < 16 ∧ c = digitChar d := by
  have hnat : ∀ c' : Char, c.toNat = c'.toNat → c = c' := fun c' he => Char.ext (UInt32.toNat_inj.1 he)
  unfold digitVal at hc
  split_ifs at hc with h1 h2 <;> cases hc
  · have h3 : 48 ≤ c.toNat := h1.1
    have h4 : c.toNat ≤ 57 := h1.2
    have hd : c.toNat - 48 < 16 := by omega
    refine ⟨hd, hnat _ ?_⟩
    rw [toNat_digitChar hd, if_pos (by omega)]
    omega
  · have h3 : 97 ≤ c.toNat := h2.1
    have h4 : c.toNat ≤ 102 := h2.2
    have hd : c.toNat - 87 < 16 := by omega
    refine ⟨hd, hnat _ ?_⟩
    rw [toNat_digitChar hd, if_neg (by omega)]
    omega

theorem digitChar_ne_minus {d : Nat} (hd : d < 16) : digitChar d ≠ '-' := by
  intro he
  have hv := digitVal_digitChar hd
  rw [he] at hv
  cases hv

theorem digitChar_eq_zero {d : Nat} (hd : d < 16) (he : digitChar d = '0') : d = 0 := by
  have hv := digitVal_digitChar hd
  rw [he] at hv
  exact (Option.some.inj hv).symm

/-! ## Reading -/

variable {b : Nat}

theorem parseDigits_map (hb : b ≤ 16) (acc : Nat) (ds : List Nat) (hds : ∀ d ∈ ds, d < b) :
    parseDigits b acc (ds.map digitChar) = some (acc * b ^ ds.length + Nat.ofDigits b ds.reverse) := by
  induction ds generalizing acc with
  | nil => simp [parseDigits]
  | cons d ds ih =>
      have hd := hds d (List.mem_cons_self ..)
      rw [List.map_cons, parseDigits, digitVal_digitChar (by omega)]
      simp only [if_pos hd]
      rw [ih _ fun d' hd' => hds d' (List.mem_cons_of_mem _ hd'), List.reverse_cons,
        Nat.ofDigits_append, Nat.ofDigits_singleton, List.length_reverse, List.length_cons]
      congr 1
      ring

theorem parseDigits_eq_some {acc n : Nat} {s : List Char} (hs : parseDigits b acc s = some n) :
    ∃ ds : List Nat, s = ds.map digitChar ∧ ∀ d ∈ ds, d < b ∧ d < 16 := by
  induction s generalizing acc with
  | nil => exact ⟨[], rfl, nofun⟩
  | cons c s ih =>
      rw [parseDigits] at hs
      cases hv : digitVal c with
      | none => simp [hv] at hs
      | some d =>
          simp only [hv] at hs
          split_ifs at hs with hd
          obtain ⟨ds, rfl, hds⟩ := ih hs
          obtain ⟨hlt, rfl⟩ := digitVal_eq_some hv
          refine ⟨d :: ds, rfl, fun d' hd' => ?_⟩
          rcases List.mem_cons.1 hd' with rfl | hd'
          · exact ⟨hd, hlt⟩
          · exact hds d' hd'

/-- **What a numeral means.** -/
theorem parseNat_eq_some (hb : b ≤ 16) {s : List Char} {n : Nat} : parseNat b s = some n ↔
    ∃ ds : List Nat, s = ds.map digitChar ∧ ds ≠ [] ∧ (∀ d ∈ ds, d < b) ∧
      n = Nat.ofDigits b ds.reverse := by
  unfold parseNat
  constructor
  · intro hs
    split_ifs at hs with hnil
    obtain ⟨ds, rfl, hds⟩ := parseDigits_eq_some hs
    have hlt : ∀ d ∈ ds, d < b := fun d hd => (hds d hd).1
    rw [parseDigits_map hb 0 ds hlt, Nat.zero_mul, Nat.zero_add] at hs
    refine ⟨ds, rfl, ?_, hlt, (Option.some.inj hs).symm⟩
    rintro rfl
    exact hnil rfl
  · rintro ⟨ds, rfl, hne, hlt, rfl⟩
    rw [if_neg (by simpa using hne), parseDigits_map hb 0 ds hlt, Nat.zero_mul, Nat.zero_add]

/-! ## Canonical numerals -/

/-- The digits of `n`, lowest first; 0 has one digit. -/
def lowDigits (b n : Nat) : List Nat := if n = 0 then [0] else b.digits n

/-- The canonical numeral of a natural number -/
def natNumeral (b n : Nat) : List Char := ((lowDigits b n).map digitChar).reverse

/-- The canonical numeral of an integer -/
def numeral (b : Nat) (z : Int) : List Char :=
  if z < 0 then '-' :: natNumeral b z.natAbs else natNumeral b z.natAbs

theorem lowDigits_ne_nil (b n : Nat) : lowDigits b n ≠ [] := by
  unfold lowDigits
  split_ifs with h
  · exact nofun
  · exact Nat.digits_ne_nil_iff_ne_zero.2 h

theorem lowDigits_lt (hb : 1 < b) {n d : Nat} (hd : d ∈ lowDigits b n) : d < b := by
  unfold lowDigits at hd
  split_ifs at hd with h
  · rw [List.mem_singleton.1 hd]
    omega
  · exact Nat.digits_lt_base hb hd

theorem ofDigits_lowDigits (b n : Nat) : Nat.ofDigits b (lowDigits b n) = n := by
  unfold lowDigits
  split_ifs with h
  · rw [h, Nat.ofDigits_singleton]
  · exact Nat.ofDigits_digits b n

/-- The division loop. -/
theorem lowDigits_eq (hb : 1 < b) (n : Nat) :
    lowDigits b n = n % b :: if n / b = 0 then [] else lowDigits b (n / b) := by
  unfold lowDigits
  by_cases h0 : n = 0
  · simp [h0]
  · rw [if_neg h0, Nat.digits_def' hb (by omega)]
    by_cases h1 : n / b = 0
    · rw [if_pos h1, h1, Nat.digits_zero]
    · rw [if_neg h1, if_neg h1]

theorem length_lowDigits (hb : 1 < b) {n k : Nat} (hk : 1 ≤ k) (hn : n < b ^ k) :
    (lowDigits b n).length ≤ k := by
  unfold lowDigits
  split_ifs
  · exact hk
  · exact (Nat.digits_length_le_iff hb n).2 hn

theorem natNumeral_eq_map (b n : Nat) : natNumeral b n = (lowDigits b n).reverse.map digitChar :=
  List.map_reverse.symm

theorem parseNat_natNumeral (hb : 1 < b) (hb' : b ≤ 16) (n : Nat) :
    parseNat b (natNumeral b n) = some n := by
  refine (parseNat_eq_some hb').2 ⟨_, natNumeral_eq_map b n, ?_, fun d hd => ?_, ?_⟩
  · simpa using lowDigits_ne_nil b n
  · exact lowDigits_lt hb (List.mem_reverse.1 hd)
  · rw [List.reverse_reverse, ofDigits_lowDigits]

/-- A numeral without a leading zero is the one of its value. -/
theorem eq_natNumeral (hb : 1 < b) (hb' : b ≤ 16) {s : List Char} {n : Nat}
    (hp : parseNat b s = some n) (hlead : ∀ ds, s = '0' :: ds → s = ['0']) : s = natNumeral b n := by
  obtain ⟨ds, rfl, hne, hlt, rfl⟩ := (parseNat_eq_some hb').1 hp
  rw [natNumeral_eq_map]
  congr 1
  obtain ⟨d, ds, rfl⟩ := List.exists_cons_of_ne_nil hne
  by_cases hd : d = 0
  · -- then it is the numeral 0
    subst hd
    have hz : ds = [] := by simpa [digitChar] using hlead (ds.map digitChar) rfl
    subst hz
    simp [lowDigits]
  · have hdig : b.digits (Nat.ofDigits b (d :: ds).reverse) = (d :: ds).reverse := by
      refine Nat.digits_ofDigits b hb _ (fun l hl => hlt l (List.mem_reverse.1 hl)) fun h => ?_
      simpa using hd
    have hnz : Nat.ofDigits b (d :: ds).reverse ≠ 0 := by
      intro h0
      rw [h0, Nat.digits_zero] at hdig
      simp at hdig
    rw [lowDigits, if_neg hnz, hdig, List.reverse_reverse]

theorem natNumeral_head (hb : 1 < b) (hb' : b ≤ 16) (n : Nat) :
    ∃ d ds, natNumeral b n = digitChar d :: ds ∧ d < 16 ∧ (d = 0 → ds = []) := by
  by_cases h0 : n = 0
  · refine ⟨0, [], ?_, by omega, fun _ => rfl⟩
    rw [h0]
    rfl
  have hne : (b.digits n) ≠ [] := Nat.digits_ne_nil_iff_ne_zero.2 h0
  have hlast := Nat.getLast_digit_ne_zero b h0
  have hmem := Nat.digits_lt_base hb (List.getLast_mem hne)
  refine ⟨(b.digits n).getLast hne, ((b.digits n).dropLast.map digitChar).reverse, ?_, by omega,
    fun he => absurd he hlast⟩
  rw [natNumeral, lowDigits, if_neg h0]
  nth_rewrite 1 [← List.dropLast_append_getLast hne]
  simp

theorem parseInt_natNumeral (hb : 1 < b) (hb' : b ≤ 16) (n : Nat) :
    parseInt b (natNumeral b n) = some (n : Int) := by
  obtain ⟨d, ds, he, hd, -⟩ := natNumeral_head hb hb' n
  have hp := parseNat_natNumeral hb hb' n
  rw [he] at hp ⊢
  unfold parseInt
  split
  · next heq => exact absurd (List.cons.inj heq).1 (digitChar_ne_minus hd)
  · rw [hp]
    rfl

/-- **Every integer has a canonical numeral.** -/
theorem canonical_numeral (hb : 1 < b) (hb' : b ≤ 16) (z : Int) : Canonical b z (numeral b z) := by
  obtain ⟨d, ds, he, hd, hzero⟩ := natNumeral_head hb hb' z.natAbs
  have hz0 : digitChar d = '0' → natNumeral b z.natAbs = ['0'] := by
    intro h0
    rw [he, h0, hzero (digitChar_eq_zero hd h0)]
  unfold numeral
  by_cases hz : z < 0
  · rw [if_pos hz]
    refine ⟨⟨fun _ => hz, fun _ => rfl⟩, ?_, ?_⟩
    · rintro ds' (h | h)
      · cases h
      · -- a negative number does not have the digits of 0
        exfalso
        rw [he, List.cons.injEq, List.cons.injEq] at h
        have hn := parseNat_natNumeral hb hb' z.natAbs
        rw [hz0 h.2.1] at hn
        have : (0 : Nat) = z.natAbs := Option.some.inj ((parseNat_natNumeral hb hb' 0).symm.trans hn)
        omega
    · rw [parseInt, parseNat_natNumeral hb hb']
      simp only [Option.map_some, Option.some.injEq]
      omega
  · rw [if_neg hz]
    refine ⟨⟨fun hs => ?_, fun h => absurd h hz⟩, ?_, ?_⟩
    · rw [he] at hs
      exact absurd (Option.some.inj hs) (digitChar_ne_minus hd)
    · rintro ds' (h | h) <;> rw [he] at h
      · exact hz0 (List.cons.inj h).1
      · exact absurd (List.cons.inj h).1 (digitChar_ne_minus hd)
    · rw [parseInt_natNumeral hb hb']
      simp only [Option.some.injEq]
      omega

/-- **It has only one.** -/
theorem Canonical.eq_numeral (hb : 1 < b) (hb' : b ≤ 16) {z : Int} {s : List Char}
    (hc : Canonical b z s) : s = numeral b z := by
  obtain ⟨hsign, hlead, hp⟩ := hc
  unfold numeral
  by_cases hz : z < 0
  · rw [if_pos hz]
    obtain ⟨ds, rfl⟩ : ∃ ds, s = '-' :: ds := by
      have hh := hsign.2 hz
      cases s with
      | nil => cases hh
      | cons c ds =>
          cases hh
          exact ⟨ds, rfl⟩
    congr 1
    rw [parseInt, Option.map_eq_some_iff] at hp
    obtain ⟨n, hn, rfl⟩ := hp
    rw [Int.natAbs_neg, Int.natAbs_natCast]
    refine eq_natNumeral hb hb' hn fun ds' hds => ?_
    have := hlead ds' (.inr (by rw [hds]))
    cases this
  · rw [if_neg hz]
    have hm : ∀ ds, s ≠ '-' :: ds := by
      rintro ds rfl
      exact hz (hsign.1 rfl)
    unfold parseInt at hp
    split at hp
    · exact absurd rfl (hm _)
    · rw [Option.map_eq_some_iff] at hp
      obtain ⟨n, hn, rfl⟩ := hp
      rw [Int.natAbs_natCast]
      exact eq_natNumeral hb hb' hn fun ds hds => hlead ds (.inl hds)

end Numeral
