import Mathlib.Algebra.Group.Nat.Defs
import Mathlib.Tactic.ByContra
import Columnar.Json.Window

/-!
# What windows tell

The tests on a word of sixteen lanes ask for a lane below a bound: subtracting the bound from
every lane sets the highest bit of a lane that was small, and that of no lane was small before
one was.  A lane that was large enough has its highest bit set after the subtraction only if it
was set before.

## Main results

* `Window.containsByte_ofBytes`, `Window.containsControl_ofBytes` — **the tests are exact.**
* `Window.isPlain_iff` — a plain window is sixteen bytes that a string may hold as they are.
-/

namespace Columnar.Window

/-! ### Lanes of numbers -/

theorem natOfBytes_lt (bytes : List UInt8) : natOfBytes bytes < 256 ^ bytes.length := by
  induction bytes with
  | nil => decide
  | cons b bytes ih =>
    have hb := b.toNat_lt
    rw [natOfBytes_cons, List.length_cons, Nat.pow_succ]
    omega

/-- The bits of the lowest lane and of the others. -/
theorem testBit_lane {a : Nat} (ha : a < 256) (x j : Nat) :
    (a + 256 * x).testBit j = if j < 8 then a.testBit j else x.testBit (j - 8) := by
  rw [Nat.add_comm]
  exact Nat.testBit_two_pow_mul_add (i := 8) x ha j

theorem testBit_seven {a : Nat} (ha : a < 256) : a.testBit 7 = decide (128 ≤ a) := by
  rw [Nat.testBit_eq_decide_div_mod_eq]
  exact decide_eq_decide.mpr (by omega)

/-- Some lane has its highest bit set after a subtraction, and had not before. -/
def HasBorrowed (n before after : Nat) : Prop :=
  ∃ i < n, after.testBit (8 * i + 7) = true ∧ before.testBit (8 * i + 7) = false

theorem hasBorrowed_succ {n a b x y : Nat} (ha : a < 256) (hb : b < 256) :
    HasBorrowed (n + 1) (a + 256 * x) (b + 256 * y)
      ↔ 128 ≤ b ∧ a < 128 ∨ HasBorrowed n x y := by
  have hzero : ∀ {a x : Nat}, a < 256 → (a + 256 * x).testBit 7 = decide (128 ≤ a) := by
    intro a x ha
    rw [testBit_lane ha, if_pos (by decide), testBit_seven ha]
  have hsucc : ∀ {a x : Nat} (i : Nat), a < 256 →
      (a + 256 * x).testBit (8 * (i + 1) + 7) = x.testBit (8 * i + 7) := by
    intro a x i ha
    rw [testBit_lane ha, if_neg (by omega)]
    congr 1
  constructor
  · rintro ⟨i, hi, hset, hclear⟩
    cases i with
    | zero =>
      rw [hzero hb, decide_eq_true_eq] at hset
      rw [hzero ha, decide_eq_false_iff_not] at hclear
      exact .inl ⟨hset, Nat.not_le.mp hclear⟩
    | succ i =>
      rw [hsucc i hb] at hset
      rw [hsucc i ha] at hclear
      exact .inr ⟨i, Nat.lt_of_succ_lt_succ hi, hset, hclear⟩
  · rintro (⟨hset, hclear⟩ | ⟨i, hi, hset, hclear⟩)
    · refine ⟨0, Nat.succ_pos n, ?_, ?_⟩
      · rw [hzero hb, decide_eq_true_eq]
        exact hset
      · rw [hzero ha, decide_eq_false_iff_not]
        exact Nat.not_le.mpr hclear
    · exact ⟨i + 1, Nat.succ_lt_succ hi, by rw [hsucc i hb, hset], by rw [hsucc i ha, hclear]⟩

/-- A lane below the bound is told by the lowest such lane; the lanes below that one borrow
nothing. -/
theorem hasBorrowed_iff {c : UInt8} (hpos : 0 < c.toNat) (hc : c.toNat ≤ 128)
    (ds : List UInt8) :
    HasBorrowed ds.length (natOfBytes ds)
        ((256 ^ ds.length - natOfBytes (List.replicate ds.length c) + natOfBytes ds)
          % 256 ^ ds.length)
      ↔ ∃ d ∈ ds, d < c := by
  induction ds with
  | nil => simp [HasBorrowed]
  | cons d ds ih =>
    have hd := d.toNat_lt
    have hsub := natOfBytes_lt (List.replicate ds.length c)
    rw [List.length_replicate] at hsub
    rw [List.length_cons, List.replicate_succ, natOfBytes_cons, natOfBytes_cons, Nat.pow_succ,
      Nat.mul_comm (256 ^ ds.length) 256, Nat.mod_mul]
    generalize hx : natOfBytes ds = x at *
    generalize hy : natOfBytes (List.replicate ds.length c) = y at *
    generalize hP : 256 ^ ds.length = P at *
    rw [hasBorrowed_succ (by omega) (Nat.mod_lt _ (by decide))]
    simp only [List.mem_cons, exists_eq_or_imp, UInt8.lt_iff_toNat_lt] at ih ⊢
    by_cases hlt : d.toNat < c.toNat
    · have hlow : (256 * P - (c.toNat + 256 * y) + (d.toNat + 256 * x)) % 256
          = 256 + d.toNat - c.toNat := by omega
      rw [hlow]
      exact iff_of_true (.inl (by omega)) (.inl hlt)
    · have hlow : (256 * P - (c.toNat + 256 * y) + (d.toNat + 256 * x)) % 256
          = d.toNat - c.toNat := by omega
      have hhigh : (256 * P - (c.toNat + 256 * y) + (d.toNat + 256 * x)) / 256
          = P - y + x := by omega
      rw [hlow, hhigh, ih]
      constructor
      · rintro (h | h)
        · omega
        · exact .inr h
      · rintro (h | h)
        · omega
        · exact .inr h

/-! ### Words -/

theorem getLsbD_highBits : ∀ k < 128, highBits.getLsbD k = decide (k % 8 = 7) := by decide

/-- The test on a word, as a property of its number. -/
theorem and_highBits_ne_zero (a x : BitVec 128) :
    (a &&& ~~~x &&& highBits != 0) = true ↔ HasBorrowed size x.toNat a.toNat := by
  have hbit : ∀ k < 128, (a &&& ~~~x &&& highBits).getLsbD k
      = (a.toNat.testBit k && !x.toNat.testBit k && decide (k % 8 = 7)) := by
    intro k hk
    rw [BitVec.getLsbD_and, BitVec.getLsbD_and, BitVec.getLsbD_not, getLsbD_highBits k hk]
    simp [hk, BitVec.testBit_toNat]
  rw [bne_iff_ne]
  constructor
  · intro hne
    by_contra hnot
    refine hne (BitVec.eq_of_getLsbD_eq fun k hk => ?_)
    rw [hbit k hk]
    refine Eq.trans ?_ BitVec.getLsbD_zero.symm
    by_contra hset
    simp only [Bool.not_eq_false, Bool.and_eq_true, Bool.not_eq_true', decide_eq_true_eq] at hset
    obtain ⟨⟨ha, hx⟩, hmod⟩ := hset
    have hplace : 8 * (k / 8) + 7 = k := by omega
    refine hnot ⟨k / 8, ?_, ?_, ?_⟩
    · rw [size]
      omega
    · rw [hplace, ha]
    · rw [hplace, hx]
  · rintro ⟨i, hi, hset, hclear⟩ hzero
    have hk : 8 * i + 7 < 128 := by
      rw [size] at hi
      omega
    have hbit' := hbit (8 * i + 7) hk
    rw [hzero, hset, hclear, decide_eq_true (by omega)] at hbit'
    exact absurd (hbit'.symm.trans BitVec.getLsbD_zero) (by decide)

theorem toNat_ofBytes {bytes : List UInt8} (h : bytes.length = size) :
    (ofBytes bytes).toNat = natOfBytes bytes := by
  have hlt := natOfBytes_lt bytes
  rw [h] at hlt
  rw [ofBytes, BitVec.toNat_ofNat]
  exact Nat.mod_eq_of_lt hlt

/-- Subtracting a bound from all lanes tells whether some lane is below it. -/
theorem sub_splat_iff {ds : List UInt8} (h : ds.length = size) {c : UInt8} (hpos : 0 < c.toNat)
    (hc : c.toNat ≤ 128) :
    ((ofBytes ds - splat c) &&& ~~~ofBytes ds &&& highBits != 0) = true ↔ ∃ d ∈ ds, d < c := by
  have hsplat : (splat c).toNat = natOfBytes (List.replicate size c) := by
    rw [← ofBytes_replicate, toNat_ofBytes List.length_replicate]
  have hiff := hasBorrowed_iff hpos hc ds
  rw [and_highBits_ne_zero, BitVec.toNat_sub, hsplat, toNat_ofBytes h]
  rwa [h] at hiff

/-! ### Bytes -/

theorem natOfBytes_xor (b : UInt8) (bytes : List UInt8) :
    natOfBytes bytes ^^^ natOfBytes (List.replicate bytes.length b)
      = natOfBytes (bytes.map (· ^^^ b)) := by
  induction bytes with
  | nil => exact Nat.xor_self 0
  | cons d bytes ih =>
    refine Nat.eq_of_testBit_eq fun j => ?_
    rw [List.length_cons, List.replicate_succ, List.map_cons, natOfBytes_cons, natOfBytes_cons,
      natOfBytes_cons, Nat.testBit_xor, testBit_lane d.toNat_lt, testBit_lane b.toNat_lt,
      testBit_lane (d ^^^ b).toNat_lt, ← ih]
    split
    · rw [UInt8.toNat_xor, Nat.testBit_xor]
    · rw [Nat.testBit_xor]

theorem ofBytes_xor_splat {bytes : List UInt8} (h : bytes.length = size) (b : UInt8) :
    ofBytes bytes ^^^ splat b = ofBytes (bytes.map (· ^^^ b)) := by
  apply BitVec.eq_of_toNat_eq
  rw [BitVec.toNat_xor, ← ofBytes_replicate, toNat_ofBytes h, toNat_ofBytes List.length_replicate,
    toNat_ofBytes (by rw [List.length_map, h]), ← natOfBytes_xor, h]

/-- **Some lane holds a byte exactly if the test says so.** -/
theorem containsByte_ofBytes {bytes : List UInt8} (h : bytes.length = size) (b : UInt8) :
    containsByte (ofBytes bytes) b = true ↔ b ∈ bytes := by
  have hone : lowBits = splat 1 := by decide
  rw [containsByte, ofBytes_xor_splat h, hone,
    sub_splat_iff (by rw [List.length_map, h]) (by decide) (by decide)]
  constructor
  · rintro ⟨d, hd, hlt⟩
    obtain ⟨e, he, rfl⟩ := List.mem_map.mp hd
    obtain rfl : e = b := by
      rw [← UInt8.xor_eq_zero_iff]
      exact UInt8.lt_one_iff.mp hlt
    exact he
  · intro hb
    exact ⟨_, List.mem_map_of_mem hb, by rw [UInt8.xor_self]; decide⟩

/-- **Some lane holds a control exactly if the test says so.** -/
theorem containsControl_ofBytes {bytes : List UInt8} (h : bytes.length = size) :
    containsControl (ofBytes bytes) = true ↔ ∃ b ∈ bytes, b < 0x20 := by
  have hblank : blanks = splat 0x20 := by decide
  rw [containsControl, hblank, sub_splat_iff h (by decide) (by decide)]

/-- A plain window is sixteen bytes that a string may hold as they are. -/
theorem isPlain_iff {bytes : List UInt8} : isPlain bytes = true ↔ size ≤ bytes.length ∧
    ∀ b ∈ bytes.take size, b ≠ quote ∧ b ≠ backslash ∧ ¬ b < 0x20 := by
  by_cases h : (bytes.take size).length = size
  · have hlen : size ≤ bytes.length := by
      rw [List.length_take] at h
      omega
    have hplain : isPlain bytes = !(containsByte (ofBytes (bytes.take size)) quote
        || containsByte (ofBytes (bytes.take size)) backslash
        || containsControl (ofBytes (bytes.take size))) := by
      rw [isPlain, h]
      rfl
    rw [hplain, Bool.not_eq_true', Bool.or_eq_false_iff, Bool.or_eq_false_iff,
      ← Bool.not_eq_true, ← Bool.not_eq_true, ← Bool.not_eq_true, containsByte_ofBytes h,
      containsByte_ofBytes h, containsControl_ofBytes h]
    constructor
    · rintro ⟨⟨hq, hb⟩, hc⟩
      refine ⟨hlen, fun b hmem => ⟨?_, ?_, fun hlt => hc ⟨b, hmem, hlt⟩⟩⟩
      · rintro rfl
        exact hq hmem
      · rintro rfl
        exact hb hmem
    · rintro ⟨-, hall⟩
      refine ⟨⟨fun hq => (hall _ hq).1 rfl, fun hb => (hall _ hb).2.1 rfl⟩, ?_⟩
      rintro ⟨b, hmem, hlt⟩
      exact (hall b hmem).2.2 hlt
  · refine iff_of_false (fun hplain => ?_) (fun hlen => ?_)
    · rw [List.length_take, Nat.min_eq_left (size_le_of_isPlain hplain)] at h
      exact h rfl
    · rw [List.length_take, Nat.min_eq_left hlen.1] at h
      exact h rfl

end Columnar.Window
