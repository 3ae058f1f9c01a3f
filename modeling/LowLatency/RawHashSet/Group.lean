import LowLatency.Lib.Bits

/-!
# Control bytes and groups of `absl::raw_hash_set`

`v5::Dictionary` keeps its words in an `absl::node_hash_set`, which is a `raw_hash_set`. Each slot of
the table has a control byte, and the table looks at the control bytes a group at a time.

| here | there (`raw_hash_set.h`) |
| --- | --- |
| `Ctrl`           | `ctrl_t` (lines 433-481), with the bit patterns of lines 436-439 as `Ctrl.byte` |
| `lowestBitSet`, `lanes`, … | `NonIterableBitMask`, `BitMask` (lines 347-431) |
| `Group`          | what the table uses of a `Group` (lines 581-763) |
| `groupSse2`      | `GroupSse2Impl`, with and without SSSE3 (lines 581-637) |
| `groupPortable`  | `GroupPortableImpl` (lines 700-755) |

A mask is a word; a bit `b` of it stands for the lane `b >> Shift`. `Represents` says for which lanes
a mask has a bit. `Group` carries these statements about its masks as fields, and its instances are
the proofs that the vector instructions and the arithmetic on 64-bit words compute them.
-/

namespace LowLatency.RawHashSet

/-! ## Control bytes -/

inductive Ctrl where
  | empty
  | deleted
  | sentinel
  | full (h2 : Fin 128)
deriving DecidableEq

def Ctrl.byte : Ctrl → Nat
  | .empty => 0x80
  | .deleted => 0xFE
  | .sentinel => 0xFF
  | .full h2 => h2

/-- The control byte stored as `b`; no other byte is ever stored. -/
def Ctrl.ofByte (b : Nat) : Ctrl :=
  if h : b < 128 then .full ⟨b, h⟩
  else if b = 0x80 then .empty
  else if b = 0xFE then .deleted
  else .sentinel

def Ctrl.isEmpty (c : Ctrl) : Bool := c == .empty
def Ctrl.isDeleted (c : Ctrl) : Bool := c == .deleted

def Ctrl.isFull : Ctrl → Bool
  | .full _ => true
  | _ => false

def Ctrl.isEmptyOrDeleted : Ctrl → Bool
  | .empty | .deleted => true
  | _ => false

/-- Deleted and empty to empty, full to deleted; also the sentinel to empty, which the caller repairs. -/
def Ctrl.specialToEmptyAndFullToDeleted : Ctrl → Ctrl
  | .full _ => .deleted
  | _ => .empty

theorem Ctrl.byte_lt (c : Ctrl) : c.byte < 256 := by
  cases c with
  | full h2 => exact Nat.lt_trans h2.2 (by decide)
  | _ => decide

theorem Ctrl.ofByte_byte (c : Ctrl) : Ctrl.ofByte c.byte = c := by
  cases c with
  | full h2 => simp [Ctrl.ofByte, Ctrl.byte]
  | _ => rfl

theorem Ctrl.byte_injective : Function.Injective Ctrl.byte := by
  intro c d h
  rw [← c.ofByte_byte, ← d.ofByte_byte, h]

/-- The top bit of a control byte is set unless the slot is full. -/
theorem Ctrl.testBit_seven (c : Ctrl) : c.byte.testBit 7 = !c.isFull := by
  cases c with
  | full h2 => exact Nat.testBit_lt_two_pow h2.2
  | _ => rfl

/-! ## Bit masks -/

/-- `LowestBitSet`, and `TrailingZeros` of a mask that is not zero. -/
def lowestBitSet (bits shift mask : Nat) : Nat := Bits.lowest bits mask >>> shift

def highestBitSet (shift mask : Nat) : Nat := (mask.size - 1) >>> shift

/-- `LeadingZeros`; the word is shifted up first where it has more bits than the mask. -/
def leadingZeros (bits significantBits shift mask : Nat) : Nat :=
  (bits - ((mask <<< (bits - significantBits <<< shift)) % 2 ^ bits).size) >>> shift

/-- The lanes that a `for` loop over the mask goes through: `*it` is the lowest one, `++it` clears it. -/
def lanesLoop (bits shift : Nat) : Nat → Nat → List Nat
  | 0, _ => []
  | fuel + 1, mask =>
    if mask = 0 then [] else lowestBitSet bits shift mask :: lanesLoop bits shift fuel (mask &&& (mask - 1))

def lanes (bits shift mask : Nat) : List Nat := lanesLoop bits shift bits mask

/-- The mask has bits for the lanes with `p`, and only for them. -/
structure Represents (bits shift mask : Nat) (p : Nat → Prop) : Prop where
  lt : mask < 2 ^ bits
  sound : ∀ b, mask.testBit b = true → p (b >>> shift)
  complete : ∀ l, p l → ∃ b, mask.testBit b = true ∧ b >>> shift = l

section
variable {bits shift mask : Nat} {p q : Nat → Prop}

theorem Represents.congr (h : Represents bits shift mask p) (hpq : ∀ l, p l ↔ q l) : Represents bits shift mask q :=
  ⟨h.lt, fun b hb => (hpq _).1 (h.sound b hb), fun l hl => h.complete l ((hpq l).2 hl)⟩

theorem Represents.bit_lt (h : Represents bits shift mask p) {b : Nat} (hb : mask.testBit b = true) : b < bits := by
  by_contra hge
  have := Nat.testBit_lt_two_pow (Nat.lt_of_lt_of_le h.lt (Nat.pow_le_pow_right (by decide) (Nat.le_of_not_lt hge)))
  simp [hb] at this

theorem Represents.ne_zero_iff (h : Represents bits shift mask p) : mask ≠ 0 ↔ ∃ l, p l := by
  constructor
  · intro hne
    obtain ⟨b, hb⟩ := Nat.exists_testBit_of_ne_zero hne
    exact ⟨_, h.sound b hb⟩
  · rintro ⟨l, hl⟩ rfl
    obtain ⟨b, hb, -⟩ := h.complete l hl
    simp at hb

theorem shiftRight_mono {a b : Nat} (h : a ≤ b) (s : Nat) : a >>> s ≤ b >>> s := by
  rw [Nat.shiftRight_eq_div_pow, Nat.shiftRight_eq_div_pow]
  exact Nat.div_le_div_right h

theorem Represents.lowest (h : Represents bits shift mask p) {l : Nat} (hl : p l) :
    p (lowestBitSet bits shift mask) ∧ lowestBitSet bits shift mask ≤ l := by
  obtain ⟨b, hb, rfl⟩ := h.complete l hl
  obtain ⟨hbit, hle, -⟩ := Bits.lowest_spec (h.bit_lt hb) hb
  exact ⟨h.sound _ hbit, shiftRight_mono hle shift⟩

theorem Represents.highest (h : Represents bits shift mask p) {l : Nat} (hl : p l) :
    p (highestBitSet shift mask) ∧ l ≤ highestBitSet shift mask := by
  obtain ⟨b, hb, rfl⟩ := h.complete l hl
  have hne : mask ≠ 0 := h.ne_zero_iff.2 ⟨_, hl⟩
  exact ⟨h.sound _ (Bits.testBit_size_pred hne), shiftRight_mono (Bits.le_size_pred hb) shift⟩

/-- The leading zeros are the lanes above the highest one. -/
theorem Represents.leadingZeros (h : Represents bits shift mask p) {significantBits : Nat}
    (hfit : significantBits <<< shift ≤ bits) (hlanes : ∀ l, p l → l < significantBits) (hne : mask ≠ 0) :
    leadingZeros bits significantBits shift mask = significantBits - 1 - highestBitSet shift mask := by
  have hsize : 0 < mask.size := Nat.size_pos.2 (Nat.pos_of_ne_zero hne)
  have htop := hlanes _ (h.sound _ (Bits.testBit_size_pred hne))
  rw [Nat.shiftLeft_eq] at hfit
  rw [Nat.shiftRight_eq_div_pow] at htop
  have hlt : mask.size - 1 < 2 ^ shift * significantBits := by
    rw [Nat.mul_comm]
    exact (Nat.div_lt_iff_lt_mul (Nat.two_pow_pos shift)).1 htop
  have hsmall : mask <<< (bits - significantBits * 2 ^ shift) < 2 ^ bits := by
    have hmask : mask < 2 ^ (2 ^ shift * significantBits) := Nat.size_le.1 (by omega)
    have hsplit : 2 ^ bits =
        2 ^ (2 ^ shift * significantBits) * 2 ^ (bits - significantBits * 2 ^ shift) := by
      rw [← Nat.pow_add, Nat.mul_comm (2 ^ shift), Nat.add_sub_cancel' hfit]
    rw [Nat.shiftLeft_eq, hsplit]
    exact Nat.mul_lt_mul_of_pos_right hmask (Nat.two_pow_pos _)
  unfold RawHashSet.leadingZeros highestBitSet
  rw [Nat.shiftLeft_eq significantBits, Nat.mod_eq_of_lt hsmall, Nat.size_shiftLeft hne, Nat.shiftRight_eq_div_pow,
    Nat.shiftRight_eq_div_pow]
  have hsub : bits - (mask.size + (bits - significantBits * 2 ^ shift)) =
      2 ^ shift * significantBits - (mask.size - 1 + 1) := by
    rw [Nat.mul_comm (2 ^ shift)]
    omega
  rw [hsub, Nat.mul_sub_div _ _ _ hlt]
  omega

theorem mem_lanesLoop {fuel : Nat} (hlt : mask < 2 ^ bits) (hlow : ∀ b, mask.testBit b = true → bits - fuel ≤ b)
    {l : Nat} : l ∈ lanesLoop bits shift fuel mask ↔ ∃ b, mask.testBit b = true ∧ b >>> shift = l := by
  -- the bits left are at least `bits - fuel`: each round clears the lowest one
  induction fuel generalizing mask with
  | zero =>
    refine ⟨fun h => by simp [lanesLoop] at h, ?_⟩
    rintro ⟨b, hb, -⟩
    have hge := hlow b hb
    have := Nat.testBit_lt_two_pow (Nat.lt_of_lt_of_le hlt (Nat.pow_le_pow_right (n := 2) (by decide) hge))
    simp [hb] at this
  | succ fuel ih =>
    unfold lanesLoop
    by_cases hzero : mask = 0
    · simp [hzero]
    · obtain ⟨b₀, hb₀, hbit⟩ := Bits.exists_testBit hzero hlt
      obtain ⟨hk, -, hmin⟩ := Bits.lowest_spec hb₀ hbit
      have hclear := Bits.testBit_and_pred hk hmin
      have hnext : ∀ b, (mask &&& (mask - 1)).testBit b = true → bits - fuel ≤ b := by
        intro b hb
        rw [hclear, Bool.and_eq_true, decide_eq_true_eq] at hb
        have hge : Bits.lowest bits mask ≤ b := by
          by_contra hcon
          simp [hmin b (Nat.lt_of_not_le hcon)] at hb
        have := hlow _ hk
        omega
      rw [if_neg hzero, List.mem_cons, ih (Nat.lt_of_le_of_lt Nat.and_le_left hlt) hnext]
      constructor
      · rintro (rfl | ⟨b, hb, hbl⟩)
        · exact ⟨_, hk, rfl⟩
        · rw [hclear, Bool.and_eq_true] at hb
          exact ⟨b, hb.1, hbl⟩
      · rintro ⟨b, hb, hbl⟩
        by_cases hbk : b = Bits.lowest bits mask
        · subst hbk
          exact Or.inl hbl.symm
        · exact Or.inr ⟨b, by simp [hclear, hb, hbk], hbl⟩

/-- The loop over a mask goes through its lanes. -/
theorem Represents.mem_lanes (h : Represents bits shift mask p) {l : Nat} : l ∈ lanes bits shift mask ↔ p l := by
  rw [lanes, mem_lanesLoop h.lt (fun b _ => by omega)]
  refine ⟨?_, h.complete l⟩
  rintro ⟨b, hb, rfl⟩
  exact h.sound b hb

end

/-! ## Groups -/

/-- The first lane that is neither empty nor deleted is `n`, or there is none and `n` is past the end. -/
structure FirstNeither (g : List Ctrl) (n : Nat) : Prop where
  le : n ≤ g.length
  before : ∀ l < n, ∃ c, g[l]? = some c ∧ c.isEmptyOrDeleted = true
  at_end : ∀ c, g[n]? = some c → c.isEmptyOrDeleted = false

/-- A group implementation: its masks as functions of the control bytes loaded, and what they mean.
`Match` may also flag other full slots than those with the hash looked for. -/
structure Group where
  logWidth : Nat
  bits : Nat
  shift : Nat
  matchH2 : List Ctrl → Fin 128 → Nat
  maskEmpty : List Ctrl → Nat
  maskEmptyOrDeleted : List Ctrl → Nat
  countLeadingEmptyOrDeleted : List Ctrl → Nat
  convertSpecialToEmptyAndFullToDeleted : List Ctrl → List Ctrl
  logWidth_eq : logWidth = 3 ∨ logWidth = 4
  significant_le : (2 ^ logWidth) <<< shift ≤ bits
  matchH2_spec : ∀ g : List Ctrl, g.length = 2 ^ logWidth → ∀ h2,
    ∃ p, Represents bits shift (matchH2 g h2) p ∧ (∀ l, g[l]? = some (.full h2) → p l) ∧
      ∀ l, p l → ∃ h, g[l]? = some (.full h)
  maskEmpty_spec : ∀ g : List Ctrl, g.length = 2 ^ logWidth →
    Represents bits shift (maskEmpty g) fun l => g[l]? = some .empty
  maskEmptyOrDeleted_spec : ∀ g : List Ctrl, g.length = 2 ^ logWidth →
    Represents bits shift (maskEmptyOrDeleted g) fun l => ∃ c, g[l]? = some c ∧ c.isEmptyOrDeleted = true
  countLeading_spec : ∀ g : List Ctrl, g.length = 2 ^ logWidth → FirstNeither g (countLeadingEmptyOrDeleted g)
  convert_spec : ∀ g : List Ctrl, g.length = 2 ^ logWidth →
    convertSpecialToEmptyAndFullToDeleted g = g.map Ctrl.specialToEmptyAndFullToDeleted

def Group.kWidth (G : Group) : Nat := 2 ^ G.logWidth

/-! ## Sixteen lanes of an XMM register -/

/-- The signed value of a byte. -/
def int8 (b : Nat) : Int := if b < 128 then b else (b : Int) - 256

/-- One lane of `_mm_cmpeq_epi8`, `_mm_cmpgt_epi8`, `_mm_sign_epi8` and of `_mm_shuffle_epi8` from a
register with the same byte `a` in all lanes. -/
def cmpeqEpi8 (a b : Nat) : Nat := if a = b then 0xFF else 0
def cmpgtEpi8 (a b : Nat) : Nat := if int8 b < int8 a then 0xFF else 0
def signEpi8 (a b : Nat) : Nat := if int8 b < 0 then (256 - a) % 256 else if b = 0 then 0 else a
def shuffleEpi8 (a b : Nat) : Nat := if 128 ≤ b then 0 else a

/-- `_mm_movemask_epi8`: the sign bits of the lanes. -/
def movemaskEpi8 (v : List Nat) : Nat := v.foldr (fun b mask => Nat.bit (decide (128 ≤ b)) mask) 0

theorem testBit_movemaskEpi8 (v : List Nat) (l : Nat) :
    (movemaskEpi8 v).testBit l = true ↔ ∃ b, v[l]? = some b ∧ 128 ≤ b := by
  induction v generalizing l with
  | nil => simp [movemaskEpi8]
  | cons b v ih =>
    cases l with
    | zero => simp [movemaskEpi8]
    | succ l => simpa [movemaskEpi8, Nat.testBit_bit_succ] using ih l

theorem movemaskEpi8_lt (v : List Nat) : movemaskEpi8 v < 2 ^ v.length := by
  refine Nat.lt_pow_two_of_testBit _ fun l hl => ?_
  rw [Bool.eq_false_iff]
  intro hbit
  obtain ⟨b, hb, -⟩ := (testBit_movemaskEpi8 v l).1 hbit
  simp [List.getElem?_eq_none hl] at hb

/-- A mask of lanes computed by `f`. -/
theorem represents_movemaskEpi8 {g : List Ctrl} (hg : g.length = 2 ^ 4) (f : Ctrl → Nat) :
    Represents 32 0 (movemaskEpi8 (g.map f)) fun l => ∃ c, g[l]? = some c ∧ 128 ≤ f c := by
  have hbit : ∀ l, (movemaskEpi8 (g.map f)).testBit l = true ↔ ∃ c, g[l]? = some c ∧ 128 ≤ f c := by
    intro l
    rw [testBit_movemaskEpi8, List.getElem?_map]
    cases g[l]? <;> simp
  refine ⟨?_, fun b hb => (hbit b).1 hb, fun l hl => ⟨l, (hbit l).2 hl, rfl⟩⟩
  refine Nat.lt_of_lt_of_le (movemaskEpi8_lt _) ?_
  rw [List.length_map, hg]
  decide

theorem cmpeqEpi8_iff (c d : Ctrl) : 128 ≤ cmpeqEpi8 d.byte c.byte ↔ c = d := by
  unfold cmpeqEpi8
  split
  · next h => exact ⟨fun _ => (Ctrl.byte_injective h).symm, fun _ => by decide⟩
  · next h => exact ⟨fun hle => absurd hle (by decide), fun hcd => absurd (by rw [hcd]) h⟩

/-- The two tests for an empty slot: `-128` is its own negative, and no other byte. -/
def emptyLane (ssse3 : Bool) (c : Ctrl) : Nat :=
  if ssse3 then signEpi8 c.byte c.byte else cmpeqEpi8 0x80 c.byte

theorem emptyLane_iff (ssse3 : Bool) (c : Ctrl) : 128 ≤ emptyLane ssse3 c ↔ c = .empty := by
  cases ssse3 with
  | false => exact cmpeqEpi8_iff c .empty
  | true =>
    cases c with
    | full h2 => revert h2; decide
    | _ => decide

/-- The two ways to convert a control byte. -/
def convertLane (ssse3 : Bool) (c : Ctrl) : Nat :=
  if ssse3 then shuffleEpi8 126 c.byte ||| 0x80 else 0x80 ||| (126 &&& (0xFF ^^^ cmpgtEpi8 0 c.byte))

theorem ofByte_convertLane (ssse3 : Bool) (c : Ctrl) :
    Ctrl.ofByte (convertLane ssse3 c) = c.specialToEmptyAndFullToDeleted := by
  cases c with
  | full h2 => revert h2; cases ssse3 <;> decide
  | _ => cases ssse3 <;> decide

theorem cmpgtEpi8_iff (c : Ctrl) : 128 ≤ cmpgtEpi8 0xFF c.byte ↔ c.isEmptyOrDeleted = true := by
  cases c with
  | full h2 => revert h2; decide
  | _ => decide

def groupSse2 (ssse3 : Bool) : Group where
  logWidth := 4
  bits := 32
  shift := 0
  matchH2 g h2 := movemaskEpi8 (g.map fun c => cmpeqEpi8 h2 c.byte)
  maskEmpty g := movemaskEpi8 (g.map (emptyLane ssse3))
  maskEmptyOrDeleted g := movemaskEpi8 (g.map fun c => cmpgtEpi8 0xFF c.byte)
  countLeadingEmptyOrDeleted g := Bits.lowest 32 (movemaskEpi8 (g.map fun c => cmpgtEpi8 0xFF c.byte) + 1)
  convertSpecialToEmptyAndFullToDeleted g := g.map fun c => Ctrl.ofByte (convertLane ssse3 c)
  logWidth_eq := Or.inr rfl
  significant_le := by decide
  matchH2_spec := by
    intro g hg h2
    refine ⟨fun l => g[l]? = some (.full h2), ?_, fun l hl => hl, fun l hl => ⟨h2, hl⟩⟩
    refine (represents_movemaskEpi8 hg _).congr fun l => ?_
    simp only [show ((h2 : Nat) = (Ctrl.full h2).byte) from rfl, cmpeqEpi8_iff]
    simp
  maskEmpty_spec := by
    intro g hg
    refine (represents_movemaskEpi8 hg _).congr fun l => ?_
    simp only [emptyLane_iff]
    simp
  maskEmptyOrDeleted_spec := by
    intro g hg
    refine (represents_movemaskEpi8 hg _).congr fun l => ?_
    simp only [cmpgtEpi8_iff]
  countLeading_spec := by
    intro g hg
    have hrep := (represents_movemaskEpi8 hg fun c => cmpgtEpi8 0xFF c.byte)
    have hlt := movemaskEpi8_lt (g.map fun c => cmpgtEpi8 0xFF c.byte)
    rw [List.length_map, hg] at hlt
    obtain ⟨hle, hones, hzero⟩ := Bits.lowest_succ hlt (show 2 ^ 4 < 32 by decide)
    refine ⟨hg ▸ hle, fun l hl => ?_, fun c hc => ?_⟩
    · obtain ⟨c, hc, hlane⟩ := hrep.sound l (hones l hl)
      exact ⟨c, hc, (cmpgtEpi8_iff c).1 hlane⟩
    · by_contra hcon
      obtain ⟨b, hb, hbl⟩ := hrep.complete _ ⟨c, hc, (cmpgtEpi8_iff c).2 (by simpa using hcon)⟩
      rw [Nat.shiftRight_zero] at hbl
      rw [hbl, hzero] at hb
      cases hb
  convert_spec := by
    intro g _
    exact List.map_congr_left fun c _ => ofByte_convertLane ssse3 c

end LowLatency.RawHashSet
