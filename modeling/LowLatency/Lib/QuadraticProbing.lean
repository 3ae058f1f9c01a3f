import Mathlib.Data.Fintype.EquivFin
import Mathlib.Data.Int.ModEq
import Mathlib.Data.Nat.Find
import Mathlib.Data.Nat.Prime.Basic
import Mathlib.Tactic.LinearCombination
import Mathlib.Tactic.Ring

/-!
# Quadratic probing in windows

A cyclic table of `2^n` slots is searched in windows of `2^w` consecutive slots. The windows start at
`h`, `h + W`, `h + 3 W`, `h + 6 W`, … modulo the number of slots, the multiples of `W = 2^w` being the
triangular numbers.

Triangular numbers run through all residues modulo a power of two (`tri_inj`, `exists_tri`). So the
first `2^(n - w)` windows cover the table (`exists_window`), each slot once if the table is at least a
window long (`window_unique`). A table shorter than a window is covered by the first one.

`Reaches` is the invariant of a table that is searched in this order: a slot is found if nothing in the
windows before it ends the search.
-/

namespace QuadraticProbing

/-! ## Triangular numbers -/

def tri (j : Nat) : Nat := j * (j + 1) / 2

@[simp] theorem tri_zero : tri 0 = 0 := rfl

theorem two_mul_tri (j : Nat) : 2 * tri j = j * (j + 1) :=
  Nat.mul_div_cancel' (Nat.even_mul_succ_self j).two_dvd

theorem tri_succ (j : Nat) : tri (j + 1) = tri j + (j + 1) := by
  have hj := two_mul_tri j
  have hj' := two_mul_tri (j + 1)
  have hexp : (j + 1) * (j + 1 + 1) = j * (j + 1) + 2 * (j + 1) := by ring
  omega

theorem tri_inj_of_le {m i j : Nat} (hij : i ≤ j) (hj : j < 2 ^ m) (h : tri i % 2 ^ m = tri j % 2 ^ m) : i = j := by
  obtain ⟨d, rfl⟩ := Nat.exists_eq_add_of_le hij
  -- twice the difference of the triangular numbers is a product of an odd and an even number
  have hprod : (i : Int) * (i + 1) + d * (2 * i + d + 1) = (i + d) * (i + d + 1) := by ring
  have hi := two_mul_tri i
  have hd := two_mul_tri (i + d)
  have hdvd : (2 ^ (m + 1) : Nat) ∣ d * (2 * i + d + 1) := by
    have hmod : Nat.ModEq (2 ^ m) (tri i) (tri (i + d)) := h
    obtain ⟨c, hc⟩ := (Nat.modEq_iff_dvd.1 hmod)
    refine Int.natCast_dvd_natCast.1 ⟨c, ?_⟩
    push_cast at hc ⊢
    have hi' : (2 : Int) * tri i = i * (i + 1) := by exact_mod_cast hi
    have hd' : (2 : Int) * tri (i + d) = (i + d) * (i + d + 1) := by exact_mod_cast hd
    linear_combination 2 * hc + hi' - hd' + hprod
  have hpow : 2 ^ (m + 1) = 2 * 2 ^ m := by ring
  rcases Nat.even_or_odd d with heven | hodd
  · have hcop : Nat.Coprime (2 ^ (m + 1)) (2 * i + d + 1) := by
      refine Nat.Coprime.pow_left _ (Nat.coprime_two_left.2 ?_)
      exact ((even_two_mul i).add heven).add_one
    have hle := Nat.eq_zero_of_dvd_of_lt (hcop.dvd_of_dvd_mul_right hdvd) (by omega)
    omega
  · have hcop : Nat.Coprime (2 ^ (m + 1)) d := Nat.Coprime.pow_left _ (Nat.coprime_two_left.2 hodd)
    have hle := Nat.le_of_dvd (by omega) (hcop.dvd_of_dvd_mul_left hdvd)
    omega

/-- The first `2^m` triangular numbers are distinct modulo `2^m`. -/
theorem tri_inj {m i j : Nat} (hi : i < 2 ^ m) (hj : j < 2 ^ m) (h : tri i % 2 ^ m = tri j % 2 ^ m) : i = j := by
  rcases Nat.le_total i j with hij | hij
  · exact tri_inj_of_le hij hj h
  · exact (tri_inj_of_le hij hi h.symm).symm

/-- So they are all residues. -/
theorem exists_tri {m g : Nat} (hg : g < 2 ^ m) : ∃ j < 2 ^ m, tri j % 2 ^ m = g := by
  have hinj : Function.Injective fun j : Fin (2 ^ m) => (⟨tri j % 2 ^ m, Nat.mod_lt _ (Nat.two_pow_pos m)⟩ : Fin (2 ^ m)) := by
    intro i j hij
    exact Fin.ext (tri_inj i.2 j.2 (Fin.mk.inj hij))
  obtain ⟨j, hj⟩ := (Finite.injective_iff_surjective.1 hinj) ⟨g, hg⟩
  exact ⟨j, j.2, Fin.mk.inj hj⟩

/-! ## Windows -/

/-- The start of window `j` of the probe sequence from `h`. -/
def offset (n w h j : Nat) : Nat := (h + 2 ^ w * tri j) % 2 ^ n

theorem offset_lt (n w h j : Nat) : offset n w h j < 2 ^ n := Nat.mod_lt _ (Nat.two_pow_pos n)

theorem offset_zero (n w h : Nat) : offset n w h 0 = h % 2 ^ n := by simp [offset]

/-- The next window starts `j + 1` windows further. -/
theorem offset_succ (n w h j : Nat) : offset n w h (j + 1) = (offset n w h j + (j + 1) * 2 ^ w) % 2 ^ n := by
  rw [offset, offset, Nat.mod_add_mod, tri_succ]
  congr 1
  ring

/-- Slot `i` is one of the `2^w` slots from `o` on. -/
def InWindow (n w o i : Nat) : Prop := ∃ l < 2 ^ w, (o + l) % 2 ^ n = i

/-- The number of windows that cover the table. -/
def windows (n w : Nat) : Nat := 2 ^ (n - w)

/-- A multiple of the width, by its residue among the windows. -/
theorem mul_mod_windows {n w : Nat} (h : w ≤ n) (x : Nat) : 2 ^ w * x % 2 ^ n = 2 ^ w * (x % windows n w) := by
  rw [windows, ← Nat.mul_mod_mul_left, ← Nat.pow_add, Nat.add_sub_cancel' h]

/-- The distance of slot `i` from `h`, around the table. -/
theorem exists_distance {n i : Nat} (h : Nat) (hi : i < 2 ^ n) : ∃ d < 2 ^ n, (h + d) % 2 ^ n = i := by
  have hpos := Nat.two_pow_pos n
  refine ⟨(i + (2 ^ n - h % 2 ^ n)) % 2 ^ n, Nat.mod_lt _ hpos, ?_⟩
  have hlt := Nat.mod_lt h hpos
  have hsum : h % 2 ^ n + (i + (2 ^ n - h % 2 ^ n)) = i + 2 ^ n := by omega
  rw [Nat.add_mod_mod, ← Nat.mod_add_mod, hsum, Nat.add_mod_right, Nat.mod_eq_of_lt hi]

/-- **The windows cover the table.** -/
theorem exists_window {n w i : Nat} (h : Nat) (hi : i < 2 ^ n) :
    ∃ j < windows n w, InWindow n w (offset n w h j) i := by
  obtain ⟨d, hd, hdi⟩ := exists_distance h hi
  rcases Nat.le_total w n with hwn | hnw
  · have hsplit : 2 ^ n = 2 ^ w * windows n w := by rw [windows, ← Nat.pow_add, Nat.add_sub_cancel' hwn]
    obtain ⟨j, hj, htri⟩ := exists_tri (m := n - w) (g := d / 2 ^ w) (Nat.div_lt_of_lt_mul (hsplit ▸ hd))
    refine ⟨j, hj, d % 2 ^ w, Nat.mod_lt _ (Nat.two_pow_pos w), ?_⟩
    rw [offset, Nat.mod_add_mod, ← hdi, Nat.add_assoc, Nat.add_mod, ← Nat.mod_add_mod (2 ^ w * tri j),
      mul_mod_windows hwn, windows, htri, Nat.div_add_mod, ← Nat.add_mod]
  · refine ⟨0, Nat.two_pow_pos _, d, Nat.lt_of_lt_of_le hd (Nat.pow_le_pow_right (by decide) hnw), ?_⟩
    rw [offset_zero, Nat.mod_add_mod, hdi]

/-- Which window a distance from `h` falls into. -/
theorem mod_div_windows {n w l : Nat} (hwn : w ≤ n) (x : Nat) (hl : l < 2 ^ w) :
    (2 ^ w * x + l) % 2 ^ n / 2 ^ w = x % windows n w := by
  have hlt : 2 ^ w * (x % windows n w) + l < 2 ^ n := by
    have hx : x % windows n w + 1 ≤ windows n w := Nat.mod_lt x (Nat.two_pow_pos _)
    calc 2 ^ w * (x % windows n w) + l < 2 ^ w * (x % windows n w + 1) := by rw [Nat.mul_add]; omega
      _ ≤ 2 ^ w * windows n w := Nat.mul_le_mul_left _ hx
      _ = 2 ^ n := by rw [windows, ← Nat.pow_add, Nat.add_sub_cancel' hwn]
  rw [← Nat.mod_add_mod, mul_mod_windows hwn, Nat.mod_eq_of_lt hlt, Nat.mul_add_div (Nat.two_pow_pos w),
    Nat.div_eq_of_lt hl, Nat.add_zero]

/-- The slots of window `j` are those at a distance from `h` that is in the `tri j`-th window. -/
theorem inWindow_iff {n w h j d : Nat} (hwn : w ≤ n) (hd : d < 2 ^ n) :
    InWindow n w (offset n w h j) ((h + d) % 2 ^ n) ↔ d / 2 ^ w = tri j % windows n w := by
  constructor
  · rintro ⟨l, hl, hd'⟩
    rw [offset, Nat.mod_add_mod, Nat.add_assoc] at hd'
    have hmod : (2 ^ w * tri j + l) % 2 ^ n = d % 2 ^ n := Nat.ModEq.add_left_cancel' h hd'
    rw [Nat.mod_eq_of_lt hd] at hmod
    rw [← hmod, mod_div_windows hwn _ hl]
  · intro hdiv
    refine ⟨d % 2 ^ w, Nat.mod_lt _ (Nat.two_pow_pos w), ?_⟩
    rw [offset, Nat.mod_add_mod, Nat.add_assoc, Nat.add_mod, ← Nat.mod_add_mod (2 ^ w * tri j), mul_mod_windows hwn,
      ← hdiv, Nat.div_add_mod, ← Nat.add_mod]

/-- **Each slot is in one of them only**, unless the table is shorter than a window. -/
theorem window_unique {n w h i j k : Nat} (hwn : w ≤ n) (hj : j < windows n w) (hk : k < windows n w)
    (hji : InWindow n w (offset n w h j) i) (hki : InWindow n w (offset n w h k) i) : j = k := by
  have hi : i < 2 ^ n := by
    obtain ⟨l, -, rfl⟩ := hji
    exact Nat.mod_lt _ (Nat.two_pow_pos n)
  obtain ⟨d, hd, rfl⟩ := exists_distance h hi
  refine tri_inj hj hk ?_
  exact ((inWindow_iff hwn hd).1 hji).symm.trans ((inWindow_iff hwn hd).1 hki)

theorem InWindow.lt {n w o i : Nat} (h : InWindow n w o i) : i < 2 ^ n := by
  obtain ⟨l, -, rfl⟩ := h
  exact Nat.mod_lt _ (Nat.two_pow_pos n)

/-- A slot of a window, by a lane that does not go around the table. -/
theorem InWindow.lane {n w o i : Nat} (h : InWindow n w o i) : ∃ l, l < 2 ^ w ∧ l < 2 ^ n ∧ (o + l) % 2 ^ n = i := by
  obtain ⟨l, hl, hi⟩ := h
  refine ⟨l % 2 ^ n, Nat.lt_of_le_of_lt (Nat.mod_le _ _) hl, Nat.mod_lt _ (Nat.two_pow_pos n), ?_⟩
  rw [Nat.add_mod_mod, hi]

/-- A slot `a` further than `i` and one `b + 1` before it, less than a width apart: a window with slot `i` has
one of them. -/
theorem InWindow.neighbour {n w o i a b x : Nat} (h : InWindow n w o i) (hab : a + b < 2 ^ w)
    (hx : (x + (b + 1)) % 2 ^ n = i) (hxlt : x < 2 ^ n) :
    InWindow n w o ((i + a) % 2 ^ n) ∨ InWindow n w o x := by
  obtain ⟨l, hl, rfl⟩ := h
  by_cases hla : l + a < 2 ^ w
  · exact Or.inl ⟨l + a, hla, by rw [Nat.mod_add_mod, Nat.add_assoc]⟩
  · refine Or.inr ⟨l - (b + 1), by omega, ?_⟩
    have hmod : Nat.ModEq (2 ^ n) (o + (l - (b + 1)) + (b + 1)) (x + (b + 1)) := by
      rw [Nat.add_assoc, Nat.sub_add_cancel (by omega)]
      exact hx.symm
    rw [Nat.ModEq.add_right_cancel' (b + 1) hmod, Nat.mod_eq_of_lt hxlt]

/-! ## What is in front of a slot -/

/-- Slot `i` is in one of the windows, and all slots of the windows before it have `p`. -/
def Reaches (n w h : Nat) (p : Nat → Prop) (i : Nat) : Prop :=
  ∃ j < windows n w, InWindow n w (offset n w h j) i ∧ ∀ k < j, ∀ i', InWindow n w (offset n w h k) i' → p i'

theorem Reaches.mono {n w h i : Nat} {p q : Nat → Prop} (hr : Reaches n w h p i) (hpq : ∀ i' < 2 ^ n, p i' → q i') :
    Reaches n w h q i := by
  obtain ⟨j, hj, hi, hbefore⟩ := hr
  exact ⟨j, hj, hi, fun k hk i' hi' => hpq i' hi'.lt (hbefore k hk i' hi')⟩

/-- Two slots at distances in the same window are reached alike. -/
theorem Reaches.of_same_window {n w h d e : Nat} {p : Nat → Prop} (hwn : w ≤ n) (hd : d < 2 ^ n) (he : e < 2 ^ n)
    (hde : d / 2 ^ w = e / 2 ^ w) (hr : Reaches n w h p ((h + d) % 2 ^ n)) : Reaches n w h p ((h + e) % 2 ^ n) := by
  obtain ⟨j, hj, hi, hbefore⟩ := hr
  rw [inWindow_iff hwn hd, hde] at hi
  exact ⟨j, hj, (inWindow_iff hwn he).2 hi, hbefore⟩

/-- The first window that has a slot with `q`. -/
theorem exists_first_window {n w i : Nat} (h : Nat) {q : Nat → Prop} (hi : i < 2 ^ n) (hq : q i) :
    ∃ j < windows n w, (∃ i', InWindow n w (offset n w h j) i' ∧ q i') ∧
      ∀ k < j, ∀ i', InWindow n w (offset n w h k) i' → ¬ q i' := by
  classical
  obtain ⟨j, hj, hji⟩ := exists_window (w := w) h hi
  have hex : ∃ j, ∃ i', InWindow n w (offset n w h j) i' ∧ q i' := ⟨j, i, hji, hq⟩
  refine ⟨Nat.find hex, Nat.lt_of_le_of_lt (Nat.find_min' hex ⟨i, hji, hq⟩) hj, Nat.find_spec hex, ?_⟩
  intro k hk i' hi' hqi'
  exact Nat.find_min hex hk ⟨i', hi', hqi'⟩

end QuadraticProbing
