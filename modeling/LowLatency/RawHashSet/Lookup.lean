import LowLatency.Lib.Probing
import LowLatency.RawHashSet.Table

/-!
# Probing: what a search sees

`Shaped` is the layout of the arrays: the control bytes of the slots, the sentinel, clones of the first
bytes so that a group can be loaded at every offset, and in a table that is smaller than a group dummy
empty bytes after the clones. `Window` is what a group loaded from it then says about the slots.

The search goes through the windows of `QuadraticProbing`. It stops at one that has an empty slot, and
always at the first one in a table smaller than a group. So a slot is found if no empty slot is in a
window before it (`find_eq_some`), and the first slot that is not full has only full ones in the
windows before it (`findFirstNonFull_spec`).
-/

namespace LowLatency.RawHashSet

open QuadraticProbing

variable {K : Type}

/-- The control bytes of a table with `cap` slots. -/
structure Mirrored (width cap : Nat) (control : List Ctrl) : Prop where
  length : cap + width ≤ control.length
  sentinel : ∀ i ≤ cap, control.getD i .sentinel = .sentinel ↔ i = cap
  clone : ∀ i < cap, i < width - 1 → control.getD (cap + 1 + i) .sentinel = control.getD i .sentinel
  dummy : ∀ p < cap + width, 2 * cap + 1 ≤ p → control.getD p .sentinel = .empty

structure Shaped (E : Env K) (n : Nat) (t : Table K) : Prop where
  capacity : t.capacity + 1 = 2 ^ n
  bound : n ≤ 59
  mirrored : Mirrored E.width t.capacity t.control
  slots : t.slots.length = t.capacity

/-- The group loaded at `o`. Beyond the slots there can be dummies only. -/
structure Window (E : Env K) (n : Nat) (t : Table K) (o : Nat) (g : List Ctrl) : Prop where
  length : g.length = 2 ^ E.group.logWidth
  real : ∀ l, l < 2 ^ E.group.logWidth → l < 2 ^ n → g[l]? = some (t.ctrlAt ((o + l) % 2 ^ n))
  any : ∀ l (c : Ctrl), g[l]? = some c → c = t.ctrlAt ((o + l) % 2 ^ n) ∨ c = .empty ∧ n < E.group.logWidth
  dummy : n < E.group.logWidth → g[2 ^ E.group.logWidth - 1]? = some .empty

/-- A search that has not found the key ends at the window from `o`. -/
def Stops (E : Env K) (n : Nat) (t : Table K) (o : Nat) : Prop :=
  n < E.group.logWidth ∨ ∃ i, InWindow n E.group.logWidth o i ∧ t.ctrlAt i = .empty

section
variable {E : Env K} {t : Table K} {n : Nat}

theorem pow_le_width (h : n < E.group.logWidth) : 2 * 2 ^ n ≤ E.width := by
  have : 2 ^ (n + 1) ≤ 2 ^ E.group.logWidth := Nat.pow_le_pow_right (by decide) h
  rw [Nat.pow_succ] at this
  exact Nat.mul_comm (2 ^ n) 2 ▸ this

theorem width_le_pow (h : E.group.logWidth ≤ n) : E.width ≤ 2 ^ n := Nat.pow_le_pow_right (by decide) h

theorem width_pos (E : Env K) : 0 < E.width := Nat.two_pow_pos _

/-- The byte at a position that a group loaded at `o` reaches. -/
theorem Shaped.getD_control (h : Shaped E n t) {o l : Nat} (ho : o < 2 ^ n) (hl : l < E.width) :
    (o + l < 2 * 2 ^ n - 1 → t.control.getD (o + l) .sentinel = t.ctrlAt ((o + l) % 2 ^ n)) ∧
      (2 * 2 ^ n - 1 ≤ o + l → t.control.getD (o + l) .sentinel = .empty) := by
  have hcap := h.capacity
  constructor
  · intro hp
    by_cases hwrap : o + l < 2 ^ n
    · rw [Nat.mod_eq_of_lt hwrap]
      rfl
    · have hmod : (o + l) % 2 ^ n = o + l - 2 ^ n := by
        rw [Nat.mod_eq_sub_mod (by omega), Nat.mod_eq_of_lt (by omega)]
      rw [hmod, Table.ctrlAt, ← h.mirrored.clone (o + l - 2 ^ n) (by omega) (by omega)]
      congr 1
      omega
  · intro hp
    exact h.mirrored.dummy _ (by omega) (by omega)

theorem Shaped.load (h : Shaped E n t) {o : Nat} (ho : o < 2 ^ n) :
    ∃ g, loadGroup E.group t.control o = some g ∧ Window E n t o g := by
  have hcap := h.capacity
  have hlen := h.mirrored.length
  have hfit : o + E.width ≤ t.control.length := by omega
  refine ⟨(t.control.drop o).take E.width, if_pos hfit, ?_⟩
  have hget : ∀ l < E.width, ((t.control.drop o).take E.width)[l]? = some (t.control.getD (o + l) .sentinel) := by
    intro l hl
    rw [List.getElem?_take_of_lt hl, List.getElem?_drop, List.getD_eq_getElem?_getD,
      List.getElem?_eq_getElem (by omega), Option.getD_some]
  have hbyte := fun l hl => h.getD_control (l := l) ho hl
  have hlength : ((t.control.drop o).take E.width).length = E.width := by
    rw [List.length_take, List.length_drop]
    omega
  refine ⟨hlength, fun l hl hln => ?_, fun l c hc => ?_, fun hn => ?_⟩
  · rw [hget l hl, (hbyte l hl).1 (by omega)]
  · have hl : l < E.width := hlength ▸ (List.getElem?_eq_some_iff.1 hc).1
    rw [hget l hl, Option.some.injEq] at hc
    by_cases hp : o + l < 2 * 2 ^ n - 1
    · exact Or.inl (hc ▸ (hbyte l hl).1 hp)
    · refine Or.inr ⟨hc ▸ (hbyte l hl).2 (by omega), ?_⟩
      -- there are no dummies unless a group is longer than the table
      by_contra hge
      have := width_le_pow (E := E) (Nat.le_of_not_lt hge)
      omega
  · have hW := pow_le_width (E := E) hn
    have hpos := Nat.two_pow_pos n
    exact (hget (E.width - 1) (by omega)).trans (by rw [(hbyte _ (by omega)).2 (by omega)])

section
variable {o : Nat} {g : List Ctrl}

/-- A lane with a byte that no dummy has is that of a slot. -/
theorem Window.ctrlAt_of_ne (h : Window E n t o g) {l : Nat} {c : Ctrl} (hc : g[l]? = some c) (hne : c ≠ .empty) :
    t.ctrlAt ((o + l) % 2 ^ n) = c := by
  rcases h.any l c hc with heq | ⟨hempty, -⟩
  · exact heq.symm
  · exact absurd hempty hne

theorem Window.lane_lt (h : Window E n t o g) {l : Nat} {c : Ctrl} (hc : g[l]? = some c) : l < 2 ^ E.group.logWidth :=
  h.length ▸ (List.getElem?_eq_some_iff.1 hc).1

theorem Window.lane (h : Window E n t o g) {i : Nat} (hi : InWindow n E.group.logWidth o i) :
    ∃ l, l < 2 ^ n ∧ (o + l) % 2 ^ n = i ∧ g[l]? = some (t.ctrlAt i) := by
  obtain ⟨l, hl, hln, rfl⟩ := hi.lane
  exact ⟨l, hln, rfl, h.real l hl hln⟩

/-- `Match`: only full slots, and all with the hash. -/
theorem Window.mem_lanes (h : Window E n t o g) (h2 : Fin 128) :
    (∀ l ∈ lanes E.group.bits E.group.shift (E.group.matchH2 g h2), ∃ h2', t.ctrlAt ((o + l) % 2 ^ n) = .full h2') ∧
      ∀ i, InWindow n E.group.logWidth o i → t.ctrlAt i = .full h2 →
        ∃ l ∈ lanes E.group.bits E.group.shift (E.group.matchH2 g h2), (o + l) % 2 ^ n = i := by
  obtain ⟨p, hrep, hall, hfull⟩ := E.group.matchH2_spec g h.length h2
  constructor
  · intro l hl
    obtain ⟨h2', hc⟩ := hfull l (hrep.mem_lanes.1 hl)
    exact ⟨h2', h.ctrlAt_of_ne hc (by simp)⟩
  · intro i hi hc
    obtain ⟨l, -, hli, hlane⟩ := h.lane hi
    exact ⟨l, hrep.mem_lanes.2 (hall l (hc ▸ hlane)), hli⟩

/-- `MaskEmpty`: the search ends here. -/
theorem Window.maskEmpty_ne_zero (h : Window E n t o g) : E.group.maskEmpty g ≠ 0 ↔ Stops E n t o := by
  rw [Stops, (E.group.maskEmpty_spec g h.length).ne_zero_iff]
  constructor
  · rintro ⟨l, hl⟩
    rcases h.any l _ hl with heq | ⟨-, hn⟩
    · exact Or.inr ⟨_, ⟨l, h.lane_lt hl, rfl⟩, heq.symm⟩
    · exact Or.inl hn
  · rintro (hn | ⟨i, hi, hc⟩)
    · exact ⟨_, h.dummy hn⟩
    · obtain ⟨l, -, -, hlane⟩ := h.lane hi
      exact ⟨l, hc ▸ hlane⟩

theorem Window.maskEmptyOrDeleted_ne_zero (h : Window E n t o g) :
    E.group.maskEmptyOrDeleted g ≠ 0 ↔
      n < E.group.logWidth ∨ ∃ i, InWindow n E.group.logWidth o i ∧ (t.ctrlAt i).isEmptyOrDeleted = true := by
  rw [(E.group.maskEmptyOrDeleted_spec g h.length).ne_zero_iff]
  constructor
  · rintro ⟨l, c, hl, hc⟩
    rcases h.any l c hl with heq | ⟨-, hn⟩
    · exact Or.inr ⟨_, ⟨l, h.lane_lt hl, rfl⟩, heq ▸ hc⟩
    · exact Or.inl hn
  · rintro (hn | ⟨i, hi, hc⟩)
    · exact ⟨_, _, h.dummy hn, rfl⟩
    · obtain ⟨l, -, -, hlane⟩ := h.lane hi
      exact ⟨l, _, hlane, hc⟩

end

/-! ## The probe sequence -/

/-- The sequence after `j` calls of `next`. -/
def seqAt (E : Env K) (n h j : Nat) : ProbeSeq :=
  ⟨2 ^ n - 1, offset n E.group.logWidth h j, E.width * j⟩

/-- Where the probing for a hash starts. -/
def home (t : Table K) (hash : UInt64) : Nat := (H1 hash t.address).toNat

theorem and_mask (x n : Nat) : x &&& (2 ^ n - 1) = x % 2 ^ n := Nat.and_two_pow_sub_one_eq_mod x n

theorem Shaped.capacity_eq (h : Shaped E n t) : t.capacity = 2 ^ n - 1 := by
  have := h.capacity
  omega

theorem Shaped.probe_eq (h : Shaped E n t) (hash : UInt64) : probe t hash = some (seqAt E n (home t hash) 0) := by
  have hlt : 2 ^ n < 2 ^ 64 := Nat.pow_lt_pow_right (by decide) (by have := h.bound; omega)
  have hmask : sizeT (t.capacity + 1) &&& t.capacity = 0 := by
    rw [h.capacity, sizeT_of_lt hlt, h.capacity_eq, and_mask, Nat.mod_self]
  rw [probe, ProbeSeq.new, if_pos hmask, seqAt, offset_zero, Nat.mul_zero, home, h.capacity_eq, and_mask]

@[simp] theorem seqAt_slot (h j l : Nat) :
    (seqAt E n h j).slot l = (offset n E.group.logWidth h j + l) % 2 ^ n := and_mask _ _

@[simp] theorem seqAt_next (h j : Nat) : (seqAt E n h j).next E.width = seqAt E n h (j + 1) := by
  have hindex : E.width * j + E.width = E.width * (j + 1) := by rw [Nat.mul_succ]
  simp only [seqAt, ProbeSeq.next, hindex]
  rw [and_mask, offset_succ]
  congr 3
  rw [Nat.mul_comm]
  rfl

/-- The assertion in the loops, as long as there are windows left. -/
theorem Shaped.index_le (h : Shaped E n t) {i j : Nat} (hj : j < windows n E.group.logWidth) :
    (seqAt E n i j).index ≤ t.capacity := by
  have hcap := h.capacity
  have hpos := Nat.two_pow_pos n
  by_cases hn : E.group.logWidth ≤ n
  · have hsplit : 2 ^ n = E.width * windows n E.group.logWidth := by
      rw [windows, Env.width, Group.kWidth, ← Nat.pow_add, Nat.add_sub_cancel' hn]
    have hlt : E.width * j < E.width * windows n E.group.logWidth := Nat.mul_lt_mul_of_pos_left hj (width_pos E)
    simp only [seqAt]
    omega
  · have hone : windows n E.group.logWidth = 1 := by rw [windows, Nat.sub_eq_zero_of_le (by omega), Nat.pow_zero]
    obtain rfl : j = 0 := by omega
    simp [seqAt]

theorem windows_le (n w : Nat) : windows n w ≤ 2 ^ n := Nat.pow_le_pow_right (by decide) (Nat.sub_le n w)

theorem eq_zero_of_lt_windows {w j : Nat} (hn : n < w) (hj : j < windows n w) : j = 0 := by
  rw [windows, Nat.sub_eq_zero_of_le (by omega)] at hj
  omega

/-! ## Search -/

section
variable [DecidableEq K]

/-- All full slots hold an element. -/
def Constructed (n : Nat) (t : Table K) : Prop := ∀ i < 2 ^ n, ∀ h2, t.ctrlAt i = .full h2 → ∃ k, t.slotAt i = some k

theorem matchLoop_spec (key : K) {seq : ProbeSeq} {ls : List Nat} (h : ∀ l ∈ ls, ∃ k, t.slotAt (seq.slot l) = some k) :
    (matchLoop t key seq ls = some none ∧ ∀ l ∈ ls, t.slotAt (seq.slot l) ≠ some key) ∨
      ∃ l ∈ ls, matchLoop t key seq ls = some (some (seq.slot l)) ∧ t.slotAt (seq.slot l) = some key := by
  induction ls with
  | nil => exact Or.inl ⟨rfl, by simp⟩
  | cons l ls ih =>
    obtain ⟨k, hk⟩ := h l List.mem_cons_self
    by_cases hkey : k = key
    · subst hkey
      exact Or.inr ⟨l, List.mem_cons_self, by simp [matchLoop, hk], hk⟩
    · have hstep : matchLoop t key seq (l :: ls) = matchLoop t key seq ls := by simp [matchLoop, hk, hkey]
      rw [hstep]
      rcases ih fun l' hl' => h l' (List.mem_cons_of_mem l hl') with ⟨hnone, hall⟩ | ⟨l', hl', hsome, hslot⟩
      · refine Or.inl ⟨hnone, ?_⟩
        rintro l' hl'
        rcases List.mem_cons.1 hl' with rfl | hl'
        · simp [hk, hkey]
        · exact hall l' hl'
      · exact Or.inr ⟨l', List.mem_cons_of_mem l hl', hsome, hslot⟩

/-- One round of the search, at window `j`: the key is found, or it is in no slot of the window. -/
theorem findLoop_round (key : K) (h : Shaped E n t) (hcon : Constructed n t) (h2 : Fin 128) (i j fuel : Nat) :
    (∃ i' < 2 ^ n, t.slotAt i' = some key ∧ findLoop E.group t key h2 (fuel + 1) (seqAt E n i j) = some (some i')) ∨
      (∀ i', InWindow n E.group.logWidth (offset n E.group.logWidth i j) i' → t.ctrlAt i' = .full h2 →
          t.slotAt i' ≠ some key) ∧
        (Stops E n t (offset n E.group.logWidth i j) →
          findLoop E.group t key h2 (fuel + 1) (seqAt E n i j) = some none) ∧
        (¬ Stops E n t (offset n E.group.logWidth i j) → j + 1 < windows n E.group.logWidth →
          findLoop E.group t key h2 (fuel + 1) (seqAt E n i j) =
            findLoop E.group t key h2 fuel (seqAt E n i (j + 1))) := by
  obtain ⟨g, hload, hg⟩ := h.load (offset_lt n E.group.logWidth i j)
  obtain ⟨hfull, hmatch⟩ := hg.mem_lanes h2
  have hslots : ∀ l ∈ lanes E.group.bits E.group.shift (E.group.matchH2 g h2),
      ∃ k, t.slotAt ((seqAt E n i j).slot l) = some k := by
    intro l hl
    obtain ⟨h2', hc⟩ := hfull l hl
    rw [seqAt_slot]
    exact hcon _ (Nat.mod_lt _ (Nat.two_pow_pos n)) h2' hc
  have hnext : (seqAt E n i j).next E.group.kWidth = seqAt E n i (j + 1) := seqAt_next i j
  have hoff : (seqAt E n i j).offset = offset n E.group.logWidth i j := rfl
  rcases matchLoop_spec key hslots with ⟨hnone, hall⟩ | ⟨l, -, hsome, hslot⟩
  · refine Or.inr ⟨?_, ?_, ?_⟩
    · intro i' hi' hc
      obtain ⟨l, hl, rfl⟩ := hmatch i' hi' hc
      rw [← seqAt_slot]
      exact hall l hl
    · intro hstop
      simp only [findLoop, hoff, hload, hnone, Option.bind_eq_bind, Option.bind_some,
        if_pos (hg.maskEmpty_ne_zero.2 hstop)]
    · intro hgo hj
      simp only [findLoop, hoff, hload, hnone, hnext, Option.bind_eq_bind, Option.bind_some,
        if_neg (mt hg.maskEmpty_ne_zero.1 hgo), if_pos (h.index_le hj)]
  · refine Or.inl ⟨_, ?_, hslot, ?_⟩
    · rw [seqAt_slot]
      exact Nat.mod_lt _ (Nat.two_pow_pos n)
    · simp only [findLoop, hoff, hload, hsome, Option.bind_eq_bind, Option.bind_some]

/-- A key in window `m` of its probe sequence, with no empty slot in the windows before it, is found. -/
theorem findLoop_eq_some {key : K} (h : Shaped E n t) (hcon : Constructed n t) {h2 : Fin 128} {i i' j m fuel : Nat}
    (hm : m < windows n E.group.logWidth) (hjm : j ≤ m) (hfuel : m < j + fuel)
    (hi' : InWindow n E.group.logWidth (offset n E.group.logWidth i m) i') (hc : t.ctrlAt i' = .full h2)
    (hslot : t.slotAt i' = some key) (hbefore : ∀ k < m, ¬ Stops E n t (offset n E.group.logWidth i k)) :
    ∃ i'' < 2 ^ n, t.slotAt i'' = some key ∧ findLoop E.group t key h2 fuel (seqAt E n i j) = some (some i'') := by
  induction fuel generalizing j with
  | zero => omega
  | succ fuel ih =>
    rcases findLoop_round key h hcon h2 i j fuel with hfound | ⟨hwindow, -, hgo⟩
    · exact hfound
    · have hlt : j < m := by
        rcases Nat.lt_or_eq_of_le hjm with hlt | rfl
        · exact hlt
        · exact absurd hslot (hwindow i' hi' hc)
      rw [hgo (hbefore j hlt) (by omega)]
      exact ih hlt (by omega)

/-- A key that is in no slot is not found, and the search ends at the first window that stops it. -/
theorem findLoop_eq_none {key : K} (h : Shaped E n t) (hcon : Constructed n t) (h2 : Fin 128) {i j m fuel : Nat}
    (hm : m < windows n E.group.logWidth) (hjm : j ≤ m) (hfuel : m < j + fuel)
    (hstop : Stops E n t (offset n E.group.logWidth i m)) (habsent : ∀ i' < 2 ^ n, t.slotAt i' ≠ some key) :
    findLoop E.group t key h2 fuel (seqAt E n i j) = some none := by
  induction fuel generalizing j with
  | zero => omega
  | succ fuel ih =>
    rcases findLoop_round key h hcon h2 i j fuel with ⟨i', hi', hslot, -⟩ | ⟨-, hend, hgo⟩
    · exact absurd hslot (habsent i' hi')
    · by_cases hnow : Stops E n t (offset n E.group.logWidth i j)
      · exact hend hnow
      · have hlt : j < m := by
          rcases Nat.lt_or_eq_of_le hjm with hlt | rfl
          · exact hlt
          · exact absurd hstop hnow
        rw [hgo hnow (by omega)]
        exact ih hlt (by omega)

/-- A slot that can be reached: no empty slot in the windows before it. -/
def Reachable (E : Env K) (n : Nat) (t : Table K) (hash : UInt64) (i : Nat) : Prop :=
  Reaches n E.group.logWidth (home t hash) (fun i' => t.ctrlAt i' ≠ .empty) i

theorem find_eq_some {key : K} (h : Shaped E n t) (hcon : Constructed n t) {i : Nat} (hc : t.ctrlAt i = .full (H2 (E.hasher key)))
    (hslot : t.slotAt i = some key) (hreach : Reachable E n t (E.hasher key) i)
    (hunique : ∀ i' < 2 ^ n, t.slotAt i' = some key → i' = i) : find E t key = some (some i) := by
  obtain ⟨m, hm, hi, hbefore⟩ := hreach
  have hgo : ∀ k < m, ¬ Stops E n t (offset n E.group.logWidth (home t (E.hasher key)) k) := by
    rintro k hk (hn | ⟨i', hi', hempty⟩)
    · have := eq_zero_of_lt_windows hn hm
      omega
    · exact hbefore k hk i' hi' hempty
  have hfuel : m < 0 + (t.capacity + 1) := by
    have := windows_le n E.group.logWidth
    have := h.capacity
    omega
  obtain ⟨i', hi', hslot', hfind⟩ := findLoop_eq_some h hcon hm (Nat.zero_le m) hfuel hi hc hslot hgo
  rw [find, h.probe_eq, Option.bind_eq_bind, Option.bind_some, hfind, hunique i' hi' hslot']

theorem find_eq_none {key : K} (h : Shaped E n t) (hcon : Constructed n t)
    (hstop : n < E.group.logWidth ∨ ∃ i < 2 ^ n, t.ctrlAt i = .empty) (habsent : ∀ i' < 2 ^ n, t.slotAt i' ≠ some key) :
    find E t key = some none := by
  obtain ⟨m, hm, hstops⟩ : ∃ m < windows n E.group.logWidth,
      Stops E n t (offset n E.group.logWidth (home t (E.hasher key)) m) := by
    rcases hstop with hn | ⟨i, hi, hempty⟩
    · exact ⟨0, Nat.two_pow_pos _, Or.inl hn⟩
    · obtain ⟨m, hm, hwin⟩ := exists_window (home t (E.hasher key)) hi
      exact ⟨m, hm, Or.inr ⟨i, hwin, hempty⟩⟩
  have hfuel : m < 0 + (t.capacity + 1) := by
    have := windows_le n E.group.logWidth
    have := h.capacity
    omega
  rw [find, h.probe_eq, Option.bind_eq_bind, Option.bind_some]
  exact findLoop_eq_none h hcon _ hm (Nat.zero_le m) hfuel hstops habsent

end

/-! ## The first slot that is not full -/

theorem Shaped.isSmall_iff (h : Shaped E n t) : isSmall E.group t.capacity = true ↔ n < E.group.logWidth := by
  have hcap := h.capacity
  have hW := width_pos E
  rw [isSmall, decide_eq_true_eq]
  constructor
  · intro hlt
    by_contra hge
    have := width_le_pow (E := E) (Nat.le_of_not_lt hge)
    simp only [Env.width] at this
    omega
  · intro hn
    have hpos := Nat.two_pow_pos n
    have := pow_le_width (E := E) hn
    simp only [Env.width] at this
    omega

/-- The lane picked is one of those that are empty or deleted, and in a small table the lowest. -/
theorem pickLane_spec {g : List Ctrl} {o : Nat} (h : Shaped E n t) (hg : Window E n t o g) (hash : UInt64) {l : Nat} {c : Ctrl}
    (hl : g[l]? = some c) (hc : c.isEmptyOrDeleted = true) :
    ∃ lane draws, pickLane E t hash (E.group.maskEmptyOrDeleted g) = (lane, { t with draws := draws }) ∧
      (∃ c', g[lane]? = some c' ∧ c'.isEmptyOrDeleted = true) ∧ (n < E.group.logWidth → lane ≤ l) := by
  have hrep := E.group.maskEmptyOrDeleted_spec g hg.length
  obtain ⟨hlow, hlowle⟩ := hrep.lowest ⟨c, hl, hc⟩
  obtain ⟨hhigh, -⟩ := hrep.highest ⟨c, hl, hc⟩
  unfold pickLane
  by_cases hsmall : isSmall E.group t.capacity = true
  · exact ⟨_, t.draws, by simp only [hsmall, if_pos], hlow, fun _ => hlowle⟩
  · have hn : ¬ n < E.group.logWidth := fun hn => hsmall (h.isSmall_iff.2 hn)
    simp only [if_neg hsmall, shouldInsertBackwards]
    refine ⟨_, t.draws + 1, rfl, ?_, fun hn' => absurd hn' hn⟩
    by_cases hback : 6 < (H1 hash t.address ^^^ E.randomSeed t.draws) % 13
    · simpa [hback] using hhigh
    · simpa [hback] using hlow

/-- What `find_first_non_full` returns if there is a slot to return. -/
structure Target (E : Env K) (n : Nat) (t : Table K) (hash : UInt64) (i : Nat) : Prop where
  lt : i < t.capacity
  nonFull : (t.ctrlAt i).isEmptyOrDeleted = true
  reaches : Reaches n E.group.logWidth (home t hash) (fun i' => (t.ctrlAt i').isEmptyOrDeleted = false) i

theorem Shaped.lt_capacity (h : Shaped E n t) {i : Nat} (hi : i < 2 ^ n) (hc : t.ctrlAt i ≠ .sentinel) :
    i < t.capacity := by
  have hcap := h.capacity
  have hne : i ≠ t.capacity := fun heq => hc ((h.mirrored.sentinel i (by omega)).2 heq)
  omega

/-- One round, at window `j`. -/
theorem findFirstNonFullLoop_round (h : Shaped E n t) (hash : UInt64) (i j fuel : Nat) :
    ((∀ i', InWindow n E.group.logWidth (offset n E.group.logWidth i j) i' → (t.ctrlAt i').isEmptyOrDeleted = false) →
      ¬ n < E.group.logWidth → j + 1 < windows n E.group.logWidth →
        findFirstNonFullLoop E t hash (fuel + 1) (seqAt E n i j) =
          findFirstNonFullLoop E t hash fuel (seqAt E n i (j + 1))) ∧
      ((∃ i', InWindow n E.group.logWidth (offset n E.group.logWidth i j) i' ∧ (t.ctrlAt i').isEmptyOrDeleted = true) →
        ∃ info draws, findFirstNonFullLoop E t hash (fuel + 1) (seqAt E n i j) = some (info, { t with draws := draws }) ∧
          InWindow n E.group.logWidth (offset n E.group.logWidth i j) info.offset ∧
          (t.ctrlAt info.offset).isEmptyOrDeleted = true) ∧
      (n < E.group.logWidth → ∃ info draws,
        findFirstNonFullLoop E t hash (fuel + 1) (seqAt E n i j) = some (info, { t with draws := draws }) ∧
          info.offset < 2 ^ n) := by
  obtain ⟨g, hload, hg⟩ := h.load (offset_lt n E.group.logWidth i j)
  have hoff : (seqAt E n i j).offset = offset n E.group.logWidth i j := rfl
  have hmask := hg.maskEmptyOrDeleted_ne_zero
  refine ⟨fun hfull hn hj => ?_, ?_, fun hn => ?_⟩
  · have hzero : ¬ E.group.maskEmptyOrDeleted g ≠ 0 := by
      rw [hmask]
      rintro (hn' | ⟨i', hi', hc⟩)
      · exact hn hn'
      · rw [hfull i' hi'] at hc
        cases hc
    simp only [findFirstNonFullLoop, hoff, hload, Option.bind_eq_bind, Option.bind_some, if_neg hzero, seqAt_next,
      if_pos (h.index_le hj)]
  · rintro ⟨i', hi', hc⟩
    obtain ⟨l, hln, rfl, hl⟩ := hg.lane hi'
    obtain ⟨lane, draws, hpick, ⟨c', hlane, hc'⟩, hle⟩ := pickLane_spec h hg hash hl hc
    refine ⟨⟨(seqAt E n i j).slot lane, (seqAt E n i j).index⟩, draws, ?_, ?_, ?_⟩
    · simp only [findFirstNonFullLoop, hoff, hload, Option.bind_eq_bind, Option.bind_some,
        if_pos (hmask.2 (Or.inr ⟨_, hi', hc⟩)), hpick]
    · exact ⟨lane, hg.lane_lt hlane, (seqAt_slot i j lane).symm⟩
    · rw [seqAt_slot]
      rcases hg.any lane c' hlane with heq | ⟨-, hn⟩
      · exact heq ▸ hc'
      · -- in a small table the lowest lane is one of the slots
        have hreal := hg.real lane (hg.lane_lt hlane) (Nat.lt_of_le_of_lt (hle hn) hln)
        rw [hlane, Option.some.injEq] at hreal
        exact hreal ▸ hc'
  · obtain ⟨lane, draws, hpick, -, -⟩ := pickLane_spec h hg hash (hg.dummy hn) rfl
    refine ⟨⟨(seqAt E n i j).slot lane, (seqAt E n i j).index⟩, draws, ?_, ?_⟩
    · simp only [findFirstNonFullLoop, hoff, hload, Option.bind_eq_bind, Option.bind_some,
        if_pos (hmask.2 (Or.inl hn)), hpick]
    · rw [seqAt_slot]
      exact Nat.mod_lt _ (Nat.two_pow_pos n)

theorem findFirstNonFull_eq (h : Shaped E n t) (hash : UInt64) :
    findFirstNonFull E t hash = findFirstNonFullLoop E t hash (t.capacity + 1) (seqAt E n (home t hash) 0) := by
  rw [findFirstNonFull, h.probe_eq, Option.bind_eq_bind, Option.bind_some]

/-- **The first slot that is not full**, if there is one: all windows before it are full. -/
theorem findFirstNonFull_spec (h : Shaped E n t) (hash : UInt64) {i : Nat} (hi : i < 2 ^ n)
    (hc : (t.ctrlAt i).isEmptyOrDeleted = true) :
    ∃ info draws, findFirstNonFull E t hash = some (info, { t with draws := draws }) ∧
      Target E n t hash info.offset := by
  obtain ⟨m, hm, hwin, hbefore⟩ := exists_first_window (w := E.group.logWidth) (home t hash)
    (q := fun i => (t.ctrlAt i).isEmptyOrDeleted = true) hi hc
  have hfull : ∀ k < m, ∀ i', InWindow n E.group.logWidth (offset n E.group.logWidth (home t hash) k) i' →
      (t.ctrlAt i').isEmptyOrDeleted = false := fun k hk i' hi' => by simpa using hbefore k hk i' hi'
  -- the rounds before window `m` pass on
  have hloop : ∀ j fuel, j ≤ m → m < j + fuel → ∃ info draws,
      findFirstNonFullLoop E t hash fuel (seqAt E n (home t hash) j) = some (info, { t with draws := draws }) ∧
        InWindow n E.group.logWidth (offset n E.group.logWidth (home t hash) m) info.offset ∧
        (t.ctrlAt info.offset).isEmptyOrDeleted = true := by
    intro j fuel
    induction fuel generalizing j with
    | zero => intro _ _; omega
    | succ fuel ih =>
      intro hjm hfuel
      obtain ⟨hgo, hhere, -⟩ := findFirstNonFullLoop_round h hash (home t hash) j fuel
      rcases Nat.lt_or_eq_of_le hjm with hlt | rfl
      · have hn : ¬ n < E.group.logWidth := by
          intro hn
          have := eq_zero_of_lt_windows hn hm
          omega
        rw [hgo (hfull j hlt) hn (by omega)]
        exact ih (j + 1) hlt (by omega)
      · exact hhere hwin
  have hfuel : m < 0 + (t.capacity + 1) := by
    have := windows_le n E.group.logWidth
    have := h.capacity
    omega
  obtain ⟨info, draws, hfind, hinfo, hcinfo⟩ := hloop 0 (t.capacity + 1) (Nat.zero_le m) hfuel
  refine ⟨info, draws, (findFirstNonFull_eq h hash).trans hfind, ?_, hcinfo, ⟨m, hm, hinfo, hfull⟩⟩
  refine h.lt_capacity hinfo.lt fun hs => ?_
  rw [hs] at hcinfo
  cases hcinfo

/-- In a small table it returns something even if all slots are full. -/
theorem findFirstNonFull_small (h : Shaped E n t) (hash : UInt64) (hn : n < E.group.logWidth) :
    ∃ info draws, findFirstNonFull E t hash = some (info, { t with draws := draws }) ∧ info.offset < 2 ^ n := by
  rw [findFirstNonFull_eq h hash]
  exact (findFirstNonFullLoop_round h hash (home t hash) 0 t.capacity).2.2 hn

end

/-! ## The windows of a probe sequence -/

section
variable (E : Env K) {n : Nat}

theorem new_eq_seqAt (hn : n ≤ 63) (hash : UInt64) : ProbeSeq.new hash (2 ^ n - 1) = some (seqAt E n hash.toNat 0) := by
  have hlt : 2 ^ n < 2 ^ 64 := Nat.pow_lt_pow_right (by decide) (by omega)
  have hsucc : 2 ^ n - 1 + 1 = 2 ^ n := Nat.sub_add_cancel (Nat.two_pow_pos n)
  have hmask : sizeT (2 ^ n - 1 + 1) &&& (2 ^ n - 1) = 0 := by rw [hsucc, sizeT_of_lt hlt, and_mask, Nat.mod_self]
  rw [ProbeSeq.new, if_pos hmask, seqAt, offset_zero, Nat.mul_zero, and_mask]

theorem iterate_next (h j : Nat) : (ProbeSeq.next E.width)^[j] (seqAt E n h 0) = seqAt E n h j := by
  induction j with
  | zero => rfl
  | succ j ih => rw [Function.iterate_succ_apply', ih, seqAt_next]

/-- **A probe sequence comes to every slot once**, lane by lane and window by window, before its index passes the capacity. If
the table is smaller than a group, the first window has every slot. -/
theorem probeSeq_covers (n : Nat) (hn : n ≤ 63) (hash : UInt64) :
    ∃ seq, ProbeSeq.new hash (2 ^ n - 1) = some seq ∧
      (E.width ≤ 2 ^ n → ∀ i < 2 ^ n, ∃! jl : Nat × Nat, jl.2 < E.width ∧
        ((ProbeSeq.next E.width)^[jl.1] seq).index ≤ 2 ^ n - 1 ∧ ((ProbeSeq.next E.width)^[jl.1] seq).slot jl.2 = i) ∧
      (2 ^ n < E.width → ∀ i < 2 ^ n, ∃ l < E.width, seq.slot l = i) := by
  refine ⟨_, new_eq_seqAt E hn hash, fun hle i hi => ?_, fun hlt i hi => ?_⟩
  · have hwn : E.group.logWidth ≤ n := (Nat.pow_le_pow_iff_right (by decide)).1 hle
    have hsplit : 2 ^ n = E.width * windows n E.group.logWidth := by
      rw [windows, Env.width, Group.kWidth, ← Nat.pow_add, Nat.add_sub_cancel' hwn]
    have hW := width_pos E
    have hindex : ∀ j, E.width * j ≤ 2 ^ n - 1 ↔ j < windows n E.group.logWidth := by
      intro j
      rw [← Nat.mul_lt_mul_left hW, ← hsplit]
      have := Nat.two_pow_pos n
      omega
    obtain ⟨j, hj, l, hl, hli⟩ := exists_window (w := E.group.logWidth) hash.toNat hi
    refine ⟨(j, l), ⟨hl, ?_, ?_⟩, ?_⟩
    · rw [iterate_next]
      exact (hindex j).2 hj
    · rw [iterate_next, seqAt_slot, hli]
    · rintro ⟨j', l'⟩ ⟨hl', hj', hli'⟩
      simp only at hl'
      rw [iterate_next] at hj' hli'
      rw [seqAt_slot] at hli'
      obtain rfl : j' = j := window_unique hwn ((hindex j').1 hj') hj ⟨l', hl', hli'⟩ ⟨l, hl, hli⟩
      -- the lanes of a window are different slots
      have hmod : l' % 2 ^ n = l % 2 ^ n := Nat.ModEq.add_left_cancel' _ (hli'.trans hli.symm)
      rw [Nat.mod_eq_of_lt (by omega), Nat.mod_eq_of_lt (by have : l < E.width := hl; omega)] at hmod
      rw [hmod]
  · obtain ⟨j, hj, l, hl, hli⟩ := exists_window (w := E.group.logWidth) hash.toNat hi
    have hnw : n < E.group.logWidth := (Nat.pow_lt_pow_iff_right (by decide)).1 hlt
    obtain rfl := eq_zero_of_lt_windows hnw hj
    exact ⟨l, hl, by rw [seqAt_slot, hli]⟩

theorem probeSeq_covers_sse2 :
    ∃ seq, ProbeSeq.new 77 63 = some seq ∧ ∃ jl : Nat × Nat, jl.2 < 16 ∧ ((ProbeSeq.next 16)^[jl.1] seq).index ≤ 63 ∧
      ((ProbeSeq.next 16)^[jl.1] seq).slot jl.2 = 5 := by
  obtain ⟨seq, hnew, hcovers, -⟩ := probeSeq_covers (K := Nat) ⟨groupSse2 true, fun _ => 0, 0, fun _ => 0, fun _ => 0⟩ 6 (by decide) 77
  obtain ⟨jl, hjl, -⟩ := hcovers (by decide) 5 (by decide)
  exact ⟨seq, hnew, jl, hjl⟩

end

end LowLatency.RawHashSet
