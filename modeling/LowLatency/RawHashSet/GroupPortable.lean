import LowLatency.RawHashSet.Group

/-!
# `GroupPortableImpl`: eight control bytes in a 64-bit word

| here | there (`raw_hash_set.h`) |
| --- | --- |
| `load64`, `store64` | `little_endian::Load64`, `Store64` |
| `matchWord`         | `Match` (lines 706-724) |
| `maskEmptyWord`, `maskEmptyOrDeletedWord` | `MaskEmpty`, `MaskEmptyOrDeleted` (lines 726-736) |
| `countLeading`      | `CountLeadingEmptyOrDeleted` (lines 738-744) |
| `convertWord`       | `ConvertSpecialToEmptyAndFullToDeleted` (lines 746-752) |

Four of the five are a matter of single bits. `Match` is not: it subtracts one from all eight bytes in
one subtraction, and a borrow runs from a matching byte into the next one. The comment in the source
says what may come of it, and `portable_match` that it is right.
-/

namespace LowLatency.RawHashSet

/-! ## Words -/

def load64 (g : List Ctrl) : BitVec 64 := BitVec.ofNat 64 (Nat.ofDigits 256 (g.map Ctrl.byte))

/-- The eight bytes stored, read back as control bytes. -/
def store64 (x : BitVec 64) : List Ctrl := (List.range 8).map fun l => Ctrl.ofByte (x.toNat >>> (8 * l) % 256)

def msbs : BitVec 64 := 0x8080808080808080
def lsbs : BitVec 64 := 0x0101010101010101

def matchWord (ctrl : BitVec 64) (h2 : Fin 128) : BitVec 64 :=
  let x := ctrl ^^^ (lsbs * BitVec.ofNat 64 h2)
  (x - lsbs) &&& ~~~x &&& msbs

def maskEmptyWord (ctrl : BitVec 64) : BitVec 64 := (ctrl &&& (~~~ctrl <<< 6)) &&& msbs

def maskEmptyOrDeletedWord (ctrl : BitVec 64) : BitVec 64 := (ctrl &&& (~~~ctrl <<< 7)) &&& msbs

def countLeading (ctrl : BitVec 64) : Nat := Bits.lowest 64 ((ctrl ||| ~~~(ctrl >>> 7)) &&& lsbs).toNat >>> 3

def convertWord (ctrl : BitVec 64) : BitVec 64 :=
  let x := ctrl &&& msbs
  (~~~x + (x >>> 7)) &&& ~~~lsbs

/-- The word with the bytes `bs`. -/
def ofBytes (bs : List Nat) : BitVec 64 := BitVec.ofNat 64 (Nat.ofDigits 256 bs)

section
variable {bs : List Nat}

theorem getLsbD_ofBytes (hbs : ∀ b ∈ bs, b < 256) (hlen : bs.length = 8) {l j : Nat} (hj : j < 8) :
    (ofBytes bs).getLsbD (8 * l + j) = (bs.getD l 0).testBit j := by
  rw [ofBytes, BitVec.getLsbD_ofNat, Bits.testBit_ofDigits hbs hj]
  by_cases hl : l < 8
  · simp [show 8 * l + j < 64 by omega]
  · rw [List.getD_eq_getElem?_getD, List.getElem?_eq_none (by omega)]
    simp

theorem toNat_ofBytes (hbs : ∀ b ∈ bs, b < 256) (hlen : bs.length = 8) :
    (ofBytes bs).toNat = Nat.ofDigits 256 bs := by
  have hlt := Nat.ofDigits_lt_base_pow_length (b := 256) (by decide) hbs
  rw [hlen] at hlt
  rw [ofBytes, BitVec.toNat_ofNat, Nat.mod_eq_of_lt (by omega)]

end

/-- Words with the same bits in each of their bytes. -/
theorem eq_of_bytes {x y : BitVec 64}
    (h : ∀ l < 8, ∀ j < 8, x.getLsbD (8 * l + j) = y.getLsbD (8 * l + j)) : x = y := by
  refine BitVec.eq_of_getLsbD_eq fun i hi => ?_
  have := h (i / 8) (by omega) (i % 8) (Nat.mod_lt i (by decide))
  rwa [Nat.div_add_mod] at this

theorem getLsbD_msbs {l j : Nat} (hl : l < 8) (hj : j < 8) : msbs.getLsbD (8 * l + j) = decide (j = 7) := by
  have hall : ∀ l < 8, ∀ j < 8, msbs.getLsbD (8 * l + j) = decide (j = 7) := by decide
  exact hall l hl j hj

theorem getLsbD_lsbs {l j : Nat} (hl : l < 8) (hj : j < 8) : lsbs.getLsbD (8 * l + j) = decide (j = 0) := by
  have hall : ∀ l < 8, ∀ j < 8, lsbs.getLsbD (8 * l + j) = decide (j = 0) := by decide
  exact hall l hl j hj

/-- A mask with bit `k` of every byte stands for the bytes that have it. -/
theorem represents_and {mask : BitVec 64} {k : Nat} (hk : k < 8)
    (hmask : ∀ {l j : Nat}, l < 8 → j < 8 → mask.getLsbD (8 * l + j) = decide (j = k)) (y : BitVec 64) :
    Represents 64 3 (y &&& mask).toNat fun l => l < 8 ∧ y.getLsbD (8 * l + k) = true := by
  refine ⟨BitVec.isLt _, fun b hb => ?_, fun l hl => ⟨8 * l + k, ?_, ?_⟩⟩
  · rw [BitVec.testBit_toNat, BitVec.getLsbD_and, Bool.and_eq_true] at hb
    have hlt : b < 64 := BitVec.lt_of_getLsbD hb.1
    have hmod : b % 8 = k := by
      have := hmask (l := b / 8) (j := b % 8) (by omega) (by omega)
      rw [Nat.div_add_mod, hb.2] at this
      simpa using this.symm
    rw [Nat.shiftRight_eq_div_pow]
    refine ⟨by omega, ?_⟩
    rw [show 8 * (b / 2 ^ 3) + k = b by omega]
    exact hb.1
  · rw [BitVec.testBit_toNat, BitVec.getLsbD_and, hl.2, hmask hl.1 hk]
    simp
  · rw [Nat.shiftRight_eq_div_pow]
    omega

section
variable {g : List Ctrl}

theorem byte_mem_lt : ∀ b ∈ g.map Ctrl.byte, b < 256 := by
  intro b hb
  obtain ⟨c, -, rfl⟩ := List.mem_map.1 hb
  exact c.byte_lt

/-- Bit `j` of lane `l` is that of its control byte. -/
theorem getLsbD_load64 (hg : g.length = 8) {l j : Nat} {c : Ctrl} (hc : g[l]? = some c) (hj : j < 8) :
    (load64 g).getLsbD (8 * l + j) = c.byte.testBit j := by
  have hget : (g.map Ctrl.byte).getD l 0 = c.byte := by
    rw [List.getD_eq_getElem?_getD, List.getElem?_map, hc]
    rfl
  rw [← hget]
  exact getLsbD_ofBytes byte_mem_lt (by rw [List.length_map, hg]) hj

theorem exists_lane (hg : g.length = 8) {l : Nat} (hl : l < 8) : ∃ c, g[l]? = some c :=
  ⟨g[l], List.getElem?_eq_getElem (hg ▸ hl)⟩

theorem lane_lt (hg : g.length = 8) {l : Nat} {c : Ctrl} (hc : g[l]? = some c) : l < 8 :=
  hg ▸ (List.getElem?_eq_some_iff.1 hc).1

/-! ## Empty and deleted bytes -/

theorem maskEmptyWord_spec (hg : g.length = 8) :
    Represents 64 3 (maskEmptyWord (load64 g)).toNat fun l => g[l]? = some .empty := by
  refine (represents_and (by decide) getLsbD_msbs _).congr fun l => ?_
  have hbit : ∀ {c : Ctrl}, g[l]? = some c →
      ((load64 g &&& ~~~load64 g <<< 6).getLsbD (8 * l + 7) = true ↔ c = .empty) := by
    intro c hc
    have hl := lane_lt hg hc
    rw [BitVec.getLsbD_and, BitVec.getLsbD_shiftLeft, BitVec.getLsbD_not, show 8 * l + 7 - 6 = 8 * l + 1 by omega,
      getLsbD_load64 hg hc (by decide), getLsbD_load64 hg hc (by decide)]
    have h7 : 8 * l + 7 < 64 := by omega
    have h1 : 8 * l + 1 < 64 := by omega
    cases c with
    | full h2 => simp [Ctrl.testBit_seven, Ctrl.isFull]
    | _ => simp [h7, h1, Ctrl.byte, show ¬(8 * l + 7 < 6) by omega, Nat.testBit]
  constructor
  · rintro ⟨hl, h⟩
    obtain ⟨c, hc⟩ := exists_lane hg hl
    rw [hc, (hbit hc).1 h]
  · intro hc
    exact ⟨lane_lt hg hc, (hbit hc).2 rfl⟩

theorem maskEmptyOrDeletedWord_spec (hg : g.length = 8) :
    Represents 64 3 (maskEmptyOrDeletedWord (load64 g)).toNat
      fun l => ∃ c, g[l]? = some c ∧ c.isEmptyOrDeleted = true := by
  refine (represents_and (by decide) getLsbD_msbs _).congr fun l => ?_
  have hbit : ∀ {c : Ctrl}, g[l]? = some c →
      ((load64 g &&& ~~~load64 g <<< 7).getLsbD (8 * l + 7) = true ↔ c.isEmptyOrDeleted = true) := by
    intro c hc
    have hl := lane_lt hg hc
    rw [BitVec.getLsbD_and, BitVec.getLsbD_shiftLeft, BitVec.getLsbD_not, show 8 * l + 7 - 7 = 8 * l + 0 by omega,
      getLsbD_load64 hg hc (by decide), getLsbD_load64 hg hc (by decide)]
    have h7 : 8 * l + 7 < 64 := by omega
    have h0 : 8 * l < 64 := by omega
    cases c with
    | full h2 => simp [Ctrl.testBit_seven, Ctrl.isFull, Ctrl.isEmptyOrDeleted]
    | _ => simp [h7, h0, Ctrl.byte, Ctrl.isEmptyOrDeleted, show ¬(8 * l + 7 < 7) by omega, Nat.testBit]
  constructor
  · rintro ⟨hl, h⟩
    obtain ⟨c, hc⟩ := exists_lane hg hl
    exact ⟨c, hc, (hbit hc).1 h⟩
  · rintro ⟨c, hc, hed⟩
    exact ⟨lane_lt hg hc, (hbit hc).2 hed⟩

/-! ## `Match` -/

/-- The bytes of `x` in `Match`: zero where the control byte is the hash looked for. -/
def xorBytes (g : List Ctrl) (h2 : Fin 128) : List Nat := g.map fun c => c.byte ^^^ h2

theorem xorBytes_lt (h2 : Fin 128) : ∀ b ∈ xorBytes g h2, b < 256 := by
  intro b hb
  obtain ⟨c, -, rfl⟩ := List.mem_map.1 hb
  exact Nat.xor_lt_two_pow (n := 8) c.byte_lt (Nat.lt_trans h2.2 (by decide))

theorem getElem?_xorBytes {l : Nat} {c : Ctrl} (hc : g[l]? = some c) (h2 : Fin 128) :
    (xorBytes g h2)[l]? = some (c.byte ^^^ h2) := by
  simp [xorBytes, hc]

theorem lsbs_mul (h2 : Fin 128) : lsbs * BitVec.ofNat 64 h2 = ofBytes (List.replicate 8 h2) := by
  have hlt := h2.2
  refine BitVec.eq_of_toNat_eq ?_
  rw [toNat_ofBytes (fun b hb => by rw [(List.mem_replicate.1 hb).2]; omega) List.length_replicate]
  rw [BitVec.toNat_mul, BitVec.toNat_ofNat, show lsbs.toNat = 0x0101010101010101 from rfl,
    Nat.mod_eq_of_lt (show (h2 : Nat) < 2 ^ 64 by omega)]
  simp only [List.replicate, Nat.ofDigits_cons, Nat.ofDigits_nil]
  omega

theorem load64_xor (hg : g.length = 8) (h2 : Fin 128) :
    load64 g ^^^ (lsbs * BitVec.ofNat 64 h2) = ofBytes (xorBytes g h2) := by
  refine eq_of_bytes fun l hl j hj => ?_
  obtain ⟨c, hc⟩ := exists_lane hg hl
  have hrep : ∀ b ∈ List.replicate 8 (h2 : Nat), b < 256 := fun b hb => by
    have := h2.2
    rw [(List.mem_replicate.1 hb).2]
    omega
  rw [lsbs_mul, BitVec.getLsbD_xor, getLsbD_load64 hg hc hj, getLsbD_ofBytes hrep List.length_replicate hj,
    getLsbD_ofBytes (xorBytes_lt h2) (by rw [xorBytes, List.length_map, hg]) hj, List.getD_eq_getElem?_getD,
    List.getD_eq_getElem?_getD, getElem?_xorBytes hc, List.getElem?_replicate, if_pos hl]
  exact (Nat.testBit_xor c.byte h2 j).symm

theorem ofBytes_sub_lsbs {bs : List Nat} (hbs : ∀ b ∈ bs, b < 256) (hlen : bs.length = 8) :
    ofBytes bs - lsbs = ofBytes (Bits.subOnes bs 0) := by
  obtain ⟨top, htop⟩ := Bits.ofDigits_subOnes hbs (Nat.zero_le 1)
  have hlt := Nat.ofDigits_lt_base_pow_length (b := 256) (by decide) (Bits.subOnes_lt bs 0)
  have hbs' := Nat.ofDigits_lt_base_pow_length (b := 256) (by decide) hbs
  rw [Bits.length_subOnes, hlen] at hlt
  have hones : Nat.ofDigits 256 (List.replicate 8 1) = 0x0101010101010101 := by decide
  rw [hlen, hones] at htop
  rw [hlen] at hbs'
  refine BitVec.eq_of_toNat_eq ?_
  rw [BitVec.toNat_sub, toNat_ofBytes hbs hlen, toNat_ofBytes (Bits.subOnes_lt bs 0) (by rw [Bits.length_subOnes, hlen]),
    show lsbs.toNat = 0x0101010101010101 from rfl]
  omega

theorem testBit_seven_iff {n : Nat} (hn : n < 256) : n.testBit 7 = true ↔ 128 ≤ n := by
  rw [Nat.testBit_eq_decide_div_mod_eq, decide_eq_true_eq]
  omega

/-- A byte is flagged if it is at most what is borrowed from it. -/
theorem matchWord_spec (hg : g.length = 8) (h2 : Fin 128) :
    Represents 64 3 (matchWord (load64 g) h2).toNat
      fun l => ∃ c, g[l]? = some c ∧ c.byte ^^^ h2 ≤ Bits.borrow (xorBytes g h2) 0 l := by
  have hlen : (xorBytes g h2).length = 8 := by rw [xorBytes, List.length_map, hg]
  have hsub : (Bits.subOnes (xorBytes g h2) 0).length = 8 := by rw [Bits.length_subOnes, hlen]
  simp only [matchWord]
  rw [load64_xor hg h2, ofBytes_sub_lsbs (xorBytes_lt h2) hlen]
  refine (represents_and (by decide) getLsbD_msbs _).congr fun l => ?_
  have hbit : ∀ {c : Ctrl}, g[l]? = some c →
      ((ofBytes (Bits.subOnes (xorBytes g h2) 0) &&& ~~~ofBytes (xorBytes g h2)).getLsbD (8 * l + 7) = true ↔
        c.byte ^^^ h2 ≤ Bits.borrow (xorBytes g h2) 0 l) := by
    intro c hc
    have hl := lane_lt hg hc
    have hx := getElem?_xorBytes hc h2
    have hlt := xorBytes_lt h2 _ (List.mem_of_getElem? hx)
    have hone := Bits.borrow_le_one (xorBytes g h2) (Nat.zero_le 1) l
    rw [BitVec.getLsbD_and, BitVec.getLsbD_not, getLsbD_ofBytes (Bits.subOnes_lt _ _) hsub (by decide),
      Bits.getD_subOnes (hlen ▸ hl),
      getLsbD_ofBytes (xorBytes_lt h2) hlen (by decide), List.getD_eq_getElem?_getD, hx, Option.getD_some,
      Bool.and_eq_true, testBit_seven_iff (Nat.mod_lt _ (by decide)), Bool.and_eq_true, Bool.not_eq_true',
      ← Bool.not_eq_true, testBit_seven_iff hlt, decide_eq_true_eq]
    omega
  constructor
  · rintro ⟨hl, h⟩
    obtain ⟨c, hc⟩ := exists_lane hg hl
    exact ⟨c, hc, (hbit hc).1 h⟩
  · rintro ⟨c, hc, hle⟩
    exact ⟨lane_lt hg hc, (hbit hc).2 hle⟩

/-- A byte that differs from the hash in the lowest bit at most is that of a full slot. -/
theorem full_of_xor_le_one {c : Ctrl} {h2 : Fin 128} (h : c.byte ^^^ h2 ≤ 1) : ∃ h, c = .full h := by
  have hbit : (c.byte ^^^ h2).testBit 7 = false := Nat.testBit_lt_two_pow (by omega)
  rw [Nat.testBit_xor, Ctrl.testBit_seven, Nat.testBit_lt_two_pow h2.2] at hbit
  cases c with
  | full h2' => exact ⟨h2', rfl⟩
  | _ => simp [Ctrl.isFull] at hbit

theorem byte_xor_eq_zero {c : Ctrl} {h2 : Fin 128} : c.byte ^^^ h2 = 0 ↔ c = .full h2 := by
  constructor
  · intro h
    have hcancel : c.byte = (c.byte ^^^ h2) ^^^ h2 := by rw [Nat.xor_assoc, Nat.xor_self, Nat.xor_zero]
    rw [h, Nat.zero_xor] at hcancel
    exact Ctrl.byte_injective hcancel
  · rintro rfl
    exact Nat.xor_self _

/-- The comment at `Match`: every slot with the hash is flagged; what is flagged besides is full, and
has a slot with the hash below it. -/
theorem portable_match (hg : g.length = 8) (h2 : Fin 128) (l : Nat) :
    (g[l]? = some (.full h2) → l ∈ lanes 64 3 (matchWord (load64 g) h2).toNat) ∧
      (l ∈ lanes 64 3 (matchWord (load64 g) h2).toNat →
        (∃ h, g[l]? = some (.full h)) ∧ (g[l]? = some (.full h2) ∨ ∃ k < l, g[k]? = some (.full h2))) := by
  rw [(matchWord_spec hg h2).mem_lanes]
  constructor
  · intro hc
    exact ⟨_, hc, by rw [byte_xor_eq_zero.2 rfl]; exact Nat.zero_le _⟩
  · rintro ⟨c, hc, hle⟩
    have hone := Bits.borrow_le_one (xorBytes g h2) (Nat.zero_le 1) l
    obtain ⟨h, rfl⟩ := full_of_xor_le_one (Nat.le_trans hle hone)
    refine ⟨⟨h, hc⟩, ?_⟩
    rcases Nat.eq_zero_or_pos (Bits.borrow (xorBytes g h2) 0 l) with hzero | hpos
    · rw [hzero, Nat.le_zero, byte_xor_eq_zero] at hle
      exact Or.inl (hle ▸ hc)
    · obtain ⟨k, hk, hkzero⟩ := Bits.exists_zero_of_borrow (Nat.le_antisymm hone hpos)
      rw [xorBytes, List.getElem?_map, Option.map_eq_some_iff] at hkzero
      obtain ⟨d, hd, hxor⟩ := hkzero
      exact Or.inr ⟨k, hk, by rw [hd, byte_xor_eq_zero.1 hxor]⟩

/-- The example of that comment: the group `0x1716151413121110` and the hash `0x12`, where slot 3 is flagged too. -/
theorem portable_match_false_positive :
    3 ∈ lanes 64 3 (matchWord (load64 [.full 16, .full 17, .full 18, .full 19, .full 20, .full 21, .full 22, .full 23]) 18).toNat ∧
      ∃ h, [Ctrl.full 16, .full 17, .full 18, .full 19, .full 20, .full 21, .full 22, .full 23][3]? = some (.full h) := by
  have hflag : 3 ∈ lanes 64 3
      (matchWord (load64 [.full 16, .full 17, .full 18, .full 19, .full 20, .full 21, .full 22, .full 23]) 18).toNat := by
    decide +kernel
  exact ⟨hflag, ((portable_match rfl 18 3).2 hflag).1⟩

/-! ## Leading lanes -/

theorem countLeading_mask (hg : g.length = 8) :
    Represents 64 3 ((load64 g ||| ~~~(load64 g >>> 7)) &&& lsbs).toNat
      fun l => ∃ c, g[l]? = some c ∧ c.isEmptyOrDeleted = false := by
  refine (represents_and (by decide) getLsbD_lsbs _).congr fun l => ?_
  have hbit : ∀ {c : Ctrl}, g[l]? = some c →
      ((load64 g ||| ~~~(load64 g >>> 7)).getLsbD (8 * l + 0) = true ↔ c.isEmptyOrDeleted = false) := by
    intro c hc
    have hl := lane_lt hg hc
    have h0 : 8 * l < 64 := by omega
    rw [BitVec.getLsbD_or, BitVec.getLsbD_not, BitVec.getLsbD_ushiftRight, show 7 + (8 * l + 0) = 8 * l + 7 by omega,
      getLsbD_load64 hg hc (by decide), getLsbD_load64 hg hc (by decide)]
    cases c with
    | full h2 => simp [h0, Ctrl.testBit_seven, Ctrl.isFull, Ctrl.isEmptyOrDeleted]
    | _ => simp [h0, Ctrl.byte, Ctrl.isEmptyOrDeleted, Nat.testBit]
  constructor
  · rintro ⟨hl, h⟩
    obtain ⟨c, hc⟩ := exists_lane hg hl
    exact ⟨c, hc, (hbit hc).1 h⟩
  · rintro ⟨c, hc, hed⟩
    exact ⟨lane_lt hg hc, (hbit hc).2 hed⟩

theorem countLeading_firstNeither (hg : g.length = 8) : FirstNeither g (countLeading (load64 g)) := by
  have hrep := countLeading_mask hg
  by_cases hzero : ((load64 g ||| ~~~(load64 g >>> 7)) &&& lsbs).toNat = 0
  · -- `countr_zero` of zero is 64: all lanes are empty or deleted
    have hall : countLeading (load64 g) = 8 := by
      rw [countLeading, hzero]
      decide
    rw [hall]
    refine ⟨hg.ge, fun l hl => ?_, fun c hc => absurd (lane_lt hg hc) (by decide)⟩
    obtain ⟨c, hc⟩ := exists_lane hg hl
    refine ⟨c, hc, ?_⟩
    by_contra hed
    exact hrep.ne_zero_iff.2 ⟨l, c, hc, by simpa using hed⟩ hzero
  · obtain ⟨l, hl⟩ := hrep.ne_zero_iff.1 hzero
    obtain ⟨⟨c, hc, hed⟩, -⟩ := hrep.lowest hl
    refine ⟨hg ▸ (lane_lt hg hc).le, fun k hk => ?_, fun d hd => ?_⟩
    · obtain ⟨d, hd⟩ := exists_lane hg (Nat.lt_trans hk (lane_lt hg hc))
      refine ⟨d, hd, ?_⟩
      by_contra hcon
      have hle := (hrep.lowest ⟨d, hd, by simpa using hcon⟩).2
      exact absurd hk (Nat.not_lt.2 hle)
    · have heq : some d = some c := hd.symm.trans hc
      cases heq
      exact hed

/-! ## Conversion -/

section
variable {f : Ctrl → Nat} (hf : ∀ c, f c < 256)
include hf

theorem map_mem_lt : ∀ b ∈ g.map f, b < 256 := by
  intro b hb
  obtain ⟨c, -, rfl⟩ := List.mem_map.1 hb
  exact hf c

/-- A word whose bytes are `f` of the control bytes. -/
theorem eq_ofBytes_map (hg : g.length = 8) {x : BitVec 64}
    (h : ∀ l c, g[l]? = some c → ∀ j < 8, x.getLsbD (8 * l + j) = (f c).testBit j) : x = ofBytes (g.map f) := by
  refine eq_of_bytes fun l hl j hj => ?_
  obtain ⟨c, hc⟩ := exists_lane hg hl
  rw [h l c hc j hj, getLsbD_ofBytes (map_mem_lt hf) (by rw [List.length_map, hg]) hj, List.getD_eq_getElem?_getD,
    List.getElem?_map, hc]
  rfl

theorem store64_ofBytes (hg : g.length = 8) : store64 (ofBytes (g.map f)) = g.map fun c => Ctrl.ofByte (f c) := by
  refine List.ext_getElem? fun l => ?_
  by_cases hl : l < 8
  · obtain ⟨c, hc⟩ := exists_lane hg hl
    have hbyte : (ofBytes (g.map f)).toNat >>> (8 * l) % 256 = f c := by
      refine Nat.eq_of_testBit_eq fun j => ?_
      rw [toNat_ofBytes (map_mem_lt hf) (by rw [List.length_map, hg]), show 256 = 2 ^ 8 from rfl,
        Nat.testBit_mod_two_pow, Nat.testBit_shiftRight]
      by_cases hj : j < 8
      · have := Bits.testBit_ofDigits (map_mem_lt (g := g) hf) (l := l) hj
        rw [List.getD_eq_getElem?_getD, List.getElem?_map, hc] at this
        simpa [hj] using this
      · have hlow : (f c).testBit j = false :=
          Nat.testBit_lt_two_pow (Nat.lt_of_lt_of_le (hf c) (Nat.pow_le_pow_right (n := 2) (by decide) (Nat.le_of_not_lt hj)))
        simp [hj, hlow]
    rw [store64, List.getElem?_map, List.getElem?_range hl, List.getElem?_map, hc, Option.map_some, Option.map_some,
      hbyte]
  · rw [List.getElem?_eq_none (by simp [store64]; omega), List.getElem?_eq_none (by simp; omega)]

end

theorem ofDigits_map_add (f h : Ctrl → Nat) (g : List Ctrl) :
    Nat.ofDigits 256 (g.map f) + Nat.ofDigits 256 (g.map h) = Nat.ofDigits 256 (g.map fun c => f c + h c) := by
  induction g with
  | nil => rfl
  | cons c g ih =>
    simp only [List.map_cons, Nat.ofDigits_cons]
    omega

/-- Bytes that add without a carry. -/
theorem ofBytes_map_add (hg : g.length = 8) {f h : Ctrl → Nat} (hfh : ∀ c, f c + h c < 256) :
    ofBytes (g.map f) + ofBytes (g.map h) = ofBytes (g.map fun c => f c + h c) := by
  have hlen : ∀ k : Ctrl → Nat, (g.map k).length = 8 := fun k => by rw [List.length_map, hg]
  have hf : ∀ c, f c < 256 := fun c => Nat.lt_of_le_of_lt (Nat.le_add_right _ _) (hfh c)
  have hh : ∀ c, h c < 256 := fun c => Nat.lt_of_le_of_lt (Nat.le_add_left _ _) (hfh c)
  have hlt := Nat.ofDigits_lt_base_pow_length (b := 256) (by decide) (map_mem_lt (g := g) hfh)
  rw [hlen] at hlt
  refine BitVec.eq_of_toNat_eq ?_
  rw [BitVec.toNat_add, toNat_ofBytes (map_mem_lt hf) (hlen f), toNat_ofBytes (map_mem_lt hh) (hlen h),
    toNat_ofBytes (map_mem_lt hfh) (hlen _), ofDigits_map_add, Nat.mod_eq_of_lt (by omega)]

theorem convertWord_spec (hg : g.length = 8) :
    store64 (convertWord (load64 g)) = g.map Ctrl.specialToEmptyAndFullToDeleted := by
  -- the bytes of `~x` and of `x >> 7`
  have hnot : ~~~(load64 g &&& msbs) = ofBytes (g.map fun c => if c.isFull then 0xFF else 0x7F) := by
    refine eq_ofBytes_map (fun c => by split <;> decide) hg fun l c hc j hj => ?_
    have hl := lane_lt hg hc
    rw [BitVec.getLsbD_not, BitVec.getLsbD_and, getLsbD_msbs hl hj, getLsbD_load64 hg hc hj]
    have hlt : 8 * l + j < 64 := by omega
    have hall : ∀ j < 8, (0xFF : Nat).testBit j = true ∧ (0x7F : Nat).testBit j = !decide (j = 7) := by decide
    by_cases h7 : j = 7
    · subst h7
      rw [Ctrl.testBit_seven]
      cases c.isFull <;> simp [hlt, hall]
    · cases c.isFull <;> simp [hlt, h7, hall j hj]
  have hshift : (load64 g &&& msbs) >>> 7 = ofBytes (g.map fun c => if c.isFull then 0 else 1) := by
    refine eq_ofBytes_map (fun c => by split <;> decide) hg fun l c hc j hj => ?_
    have hl := lane_lt hg hc
    rw [BitVec.getLsbD_ushiftRight, BitVec.getLsbD_and]
    by_cases h0 : j = 0
    · subst h0
      rw [show 7 + (8 * l + 0) = 8 * l + 7 by omega, getLsbD_msbs hl (by decide), getLsbD_load64 hg hc (by decide),
        Ctrl.testBit_seven]
      cases c.isFull <;> simp
    · have hzero : msbs.getLsbD (7 + (8 * l + j)) = false := by
        by_cases hl' : l + 1 < 8
        · rw [show 7 + (8 * l + j) = 8 * (l + 1) + (j - 1) by omega, getLsbD_msbs hl' (by omega)]
          simp
          omega
        · exact BitVec.getLsbD_of_ge _ _ (by omega)
      have hone : (1 : Nat).testBit j = false := Nat.testBit_lt_two_pow (Nat.one_lt_two_pow h0)
      rw [hzero, Bool.and_false]
      cases c.isFull <;> simp [hone]
  have hsum : convertWord (load64 g) = ofBytes (g.map fun c => if c.isFull then 0xFE else 0x80) := by
    simp only [convertWord]
    rw [hnot, hshift, ofBytes_map_add hg (fun c => by cases c.isFull <;> decide)]
    refine eq_ofBytes_map (fun c => by split <;> decide) hg fun l c hc j hj => ?_
    have hl := lane_lt hg hc
    have hlt : 8 * l + j < 64 := by omega
    have hall : ∀ j < 8, ∀ b : Bool, (((if b then 0xFF else 0x7F) + (if b then 0 else 1) : Nat).testBit j &&
        !decide (j = 0)) = (if b then 0xFE else 0x80 : Nat).testBit j := by decide
    rw [BitVec.getLsbD_and, BitVec.getLsbD_not, getLsbD_lsbs hl hj, ← hall j hj c.isFull,
      getLsbD_ofBytes (map_mem_lt fun c => by cases c.isFull <;> decide) (by rw [List.length_map, hg]) hj,
      List.getD_eq_getElem?_getD, List.getElem?_map, hc]
    simp [hlt]
  rw [hsum, store64_ofBytes (fun c => by split <;> decide) hg]
  refine List.map_congr_left fun c _ => ?_
  cases c <;> rfl

end

def groupPortable : Group where
  logWidth := 3
  bits := 64
  shift := 3
  matchH2 g h2 := (matchWord (load64 g) h2).toNat
  maskEmpty g := (maskEmptyWord (load64 g)).toNat
  maskEmptyOrDeleted g := (maskEmptyOrDeletedWord (load64 g)).toNat
  countLeadingEmptyOrDeleted g := countLeading (load64 g)
  convertSpecialToEmptyAndFullToDeleted g := store64 (convertWord (load64 g))
  logWidth_eq := Or.inl rfl
  significant_le := by decide
  matchH2_spec := by
    intro g hg h2
    refine ⟨_, matchWord_spec hg h2, fun l hl => ?_, fun l hl => ?_⟩
    · exact ⟨_, hl, by rw [byte_xor_eq_zero.2 rfl]; exact Nat.zero_le _⟩
    · obtain ⟨c, hc, hle⟩ := hl
      obtain ⟨h, rfl⟩ := full_of_xor_le_one (Nat.le_trans hle (Bits.borrow_le_one _ (Nat.zero_le 1) l))
      exact ⟨h, hc⟩
  maskEmpty_spec _ hg := maskEmptyWord_spec hg
  maskEmptyOrDeleted_spec _ hg := maskEmptyOrDeletedWord_spec hg
  countLeading_spec _ hg := countLeading_firstNeither hg
  convert_spec _ hg := convertWord_spec hg

end LowLatency.RawHashSet
