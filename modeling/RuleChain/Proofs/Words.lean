import Mathlib.Tactic.Ring
import RuleChain.Expr.Compare

/-! # Words and numbers

  A register is worked on as a word, and a constant of several bytes is ordered like a dictionary.
  Both are ways to compute with bytes:

  - bit `i` of a word is bit `i % 8` of its byte `i / 8`, so a word under a mask is its bytes under
    the bytes of the mask;
  - runs of bytes of the same length are in the order of the numbers that they spell, the first byte
    counting most.
-/

namespace RuleChain

/-! ### Bits of words -/

namespace Word

/-- Each bit of a word is a bit of one of its bytes. -/
theorem getLsbD_ofBytes (bytes : Bytes) {i : Nat} (h : i < 32) :
    (ofBytes bytes).toBitVec.getLsbD i = (bytes.getD (i / 8) 0).toBitVec.getLsbD (i % 8) := by
  have hcases : i < 8 ∨ (8 ≤ i ∧ i < 16) ∨ (16 ≤ i ∧ i < 24) ∨ 24 ≤ i := by omega
  unfold ofBytes
  -- a byte has no bit behind the eighth, so bytes that were shifted less do not show here
  rcases hcases with hi | ⟨hlo, hi⟩ | ⟨hlo, hi⟩ | hlo
  · have hdiv : i / 8 = 0 := by omega
    have hmod : i % 8 = i := by omega
    rw [hdiv, hmod]
    simp [h, hi, show i < 16 by omega, show i < 24 by omega]
  · have hdiv : i / 8 = 1 := by omega
    have hmod : i % 8 = i - 8 := by omega
    rw [hdiv, hmod]
    simp [h, hi, hlo, Nat.not_lt.mpr hlo, show i < 24 by omega]
  · have hdiv : i / 8 = 2 := by omega
    have hmod : i % 8 = i - 16 := by omega
    rw [hdiv, hmod]
    simp [h, hi, Nat.not_lt.mpr hlo, show 8 ≤ i by omega, show 8 ≤ i - 8 by omega]
  · have hdiv : i / 8 = 3 := by omega
    have hmod : i % 8 = i - 24 := by omega
    rw [hdiv, hmod]
    simp [h, Nat.not_lt.mpr hlo, show 8 ≤ i by omega, show 8 ≤ i - 8 by omega,
      show 8 ≤ i - 16 by omega]

theorem getLsbD_toBytes (word : UInt32) {k i : Nat} (hk : k < 4) (hi : i < 8) :
    ((toBytes word).getD k 0).toBitVec.getLsbD i = word.toBitVec.getLsbD (8 * k + i) := by
  have hcases : k = 0 ∨ k = 1 ∨ k = 2 ∨ k = 3 := by omega
  rcases hcases with rfl | rfl | rfl | rfl <;> simp [toBytes, hi]

/-- A word gives back its bytes, with zeros for those that were missing. -/
theorem getD_toBytes_ofBytes (bytes : Bytes) {k : Nat} (hk : k < 4) :
    (toBytes (ofBytes bytes)).getD k 0 = bytes.getD k 0 := by
  apply UInt8.eq_of_toBitVec_eq
  apply BitVec.eq_of_getLsbD_eq
  intro i hi
  have hdiv : (8 * k + i) / 8 = k := by omega
  have hmod : (8 * k + i) % 8 = i := by omega
  rw [getLsbD_toBytes _ hk hi, getLsbD_ofBytes _ (by omega), hdiv, hmod]

/-- Words are equal under a mask if their bytes are equal under the bytes of the mask. -/
theorem and_ofBytes_eq_iff {a b mask : Bytes} :
    ofBytes a &&& ofBytes mask = ofBytes b &&& ofBytes mask ↔
      ∀ k < 4, a.getD k 0 &&& mask.getD k 0 = b.getD k 0 &&& mask.getD k 0 := by
  constructor
  · intro h k hk
    apply UInt8.eq_of_toBitVec_eq
    apply BitVec.eq_of_getLsbD_eq
    intro i hi
    have hbit := congrArg (fun word : UInt32 => word.toBitVec.getLsbD (8 * k + i)) h
    have hdiv : (8 * k + i) / 8 = k := by omega
    have hmod : (8 * k + i) % 8 = i := by omega
    simp only [UInt32.toBitVec_and, BitVec.getLsbD_and] at hbit
    rw [getLsbD_ofBytes _ (by omega), getLsbD_ofBytes _ (by omega), getLsbD_ofBytes _ (by omega),
      hdiv, hmod] at hbit
    simpa using hbit
  · intro h
    apply UInt32.eq_of_toBitVec_eq
    apply BitVec.eq_of_getLsbD_eq
    intro i hi
    have hbyte := h (i / 8) (by omega)
    have hbit := congrArg (fun byte : UInt8 => byte.toBitVec.getLsbD (i % 8)) hbyte
    simp only [UInt8.toBitVec_and, BitVec.getLsbD_and] at hbit
    simp only [UInt32.toBitVec_and, BitVec.getLsbD_and]
    rw [getLsbD_ofBytes _ hi, getLsbD_ofBytes _ hi, getLsbD_ofBytes _ hi]
    exact hbit

end Word

/-! ### Bytes under a mask -/

/-- What is left of bytes under the bytes of a mask. -/
def maskBytes (bytes mask : Bytes) : Bytes := List.zipWith (· &&& ·) bytes mask

theorem length_maskBytes {bytes mask : Bytes} (h : bytes.length = mask.length) :
    (maskBytes bytes mask).length = mask.length := by
  rw [maskBytes, List.length_zipWith, h, Nat.min_self]

theorem getElem?_maskBytes {bytes mask : Bytes} {k : Nat} (hmask : k < mask.length)
    (h : mask.length ≤ bytes.length) :
    (maskBytes bytes mask)[k]? = some (bytes.getD k 0 &&& mask.getD k 0) := by
  have hbytes : k < bytes.length := Nat.lt_of_lt_of_le hmask h
  simp [maskBytes, hbytes, hmask]

/-- A mask of ones leaves everything. -/
theorem maskBytes_ones (bytes : Bytes) : maskBytes bytes (.replicate bytes.length 0xFF) = bytes := by
  induction bytes with
  | nil => rfl
  | cons byte rest ih =>
    have hbyte : byte &&& 0xFF = byte := UInt8.and_neg_one
    rw [List.length_cons, List.replicate_succ, maskBytes, List.zipWith_cons_cons, hbyte]
    exact congrArg _ ih

/-- The word of a mask keeps the bytes that the mask has, and none behind them. -/
theorem Word.masked_eq_iff {a b mask : Bytes} (hsize : mask.length ≤ size)
    (ha : mask.length ≤ a.length) (hb : b.length = mask.length) :
    ofBytes a &&& ofBytes mask = ofBytes b &&& ofBytes mask ↔
      maskBytes (a.take mask.length) mask = maskBytes b mask := by
  have htake : (a.take mask.length).length = mask.length := List.length_take_of_le ha
  have hgetD : ∀ {k}, k < mask.length → (a.take mask.length).getD k 0 = a.getD k 0 := by
    intro k hk
    simp [List.getD_eq_getElem?_getD, hk]
  rw [and_ofBytes_eq_iff]
  constructor
  · intro h
    apply List.ext_getElem?
    intro k
    by_cases hk : k < mask.length
    · rw [getElem?_maskBytes hk (Nat.le_of_eq htake.symm), getElem?_maskBytes hk
        (Nat.le_of_eq hb.symm), hgetD hk, h k (Nat.lt_of_lt_of_le hk hsize)]
    · rw [List.getElem?_eq_none (by rw [length_maskBytes htake]; omega),
        List.getElem?_eq_none (by rw [length_maskBytes hb]; omega)]
  · intro h k _
    by_cases hk : k < mask.length
    · have hbyte := congrArg (·[k]?) h
      simp only [getElem?_maskBytes hk (Nat.le_of_eq htake.symm),
        getElem?_maskBytes hk (Nat.le_of_eq hb.symm), hgetD hk] at hbyte
      exact Option.some.inj hbyte
    · -- the mask is zero here
      have hzero : mask.getD k 0 = 0 := by simp [List.getD_eq_getElem?_getD, Nat.not_lt.mp hk]
      rw [hzero, UInt8.and_zero, UInt8.and_zero]

/-! ### Bytes as numbers -/

/-- The number that bytes spell, the first one counting most. -/
def bigEndian (bytes : Bytes) : Nat := bytes.foldl (fun n byte => n * 256 + byte.toNat) 0

example : bigEndian [0x01, 0xBB] = 443 := by decide

/-- What was spelled before is moved up by all bytes that follow. -/
theorem foldl_bigEndian (bytes : Bytes) (n : Nat) :
    bytes.foldl (fun n byte => n * 256 + byte.toNat) n =
      n * 256 ^ bytes.length + bigEndian bytes := by
  unfold bigEndian
  induction bytes generalizing n with
  | nil => simp
  | cons byte rest ih =>
    rw [List.foldl_cons, List.foldl_cons, ih, ih (0 * 256 + byte.toNat), List.length_cons,
      Nat.pow_succ]
    ring

theorem bigEndian_cons (byte : UInt8) (rest : Bytes) :
    bigEndian (byte :: rest) = byte.toNat * 256 ^ rest.length + bigEndian rest := by
  refine (foldl_bigEndian rest (0 * 256 + byte.toNat)).trans ?_
  rw [Nat.zero_mul, Nat.zero_add]

theorem bigEndian_lt (bytes : Bytes) : bigEndian bytes < 256 ^ bytes.length := by
  induction bytes with
  | nil => decide
  | cons byte rest ih =>
    have hbyte : byte.toNat + 1 ≤ 256 := byte.toNat_lt
    rw [bigEndian_cons, List.length_cons]
    calc byte.toNat * 256 ^ rest.length + bigEndian rest
        < (byte.toNat + 1) * 256 ^ rest.length := by
          rw [Nat.succ_mul]
          omega
      _ ≤ 256 * 256 ^ rest.length := Nat.mul_le_mul_right _ hbyte
      _ = 256 ^ (rest.length + 1) := by rw [Nat.pow_succ, Nat.mul_comm]

/-- If the first bytes differ they decide, whatever follows. -/
theorem bigEndian_lt_of_head_lt {a b : UInt8} {as bs : Bytes} (hlt : a < b)
    (hlength : as.length = bs.length) : bigEndian (a :: as) < bigEndian (b :: bs) := by
  have hhead : a.toNat + 1 ≤ b.toNat := UInt8.lt_iff_toNat_lt.mp hlt
  have hrest := bigEndian_lt as
  rw [bigEndian_cons, bigEndian_cons, hlength]
  rw [hlength] at hrest
  calc a.toNat * 256 ^ bs.length + bigEndian as
      < (a.toNat + 1) * 256 ^ bs.length := by
        rw [Nat.succ_mul]
        omega
    _ ≤ b.toNat * 256 ^ bs.length := Nat.mul_le_mul_right _ hhead
    _ ≤ b.toNat * 256 ^ bs.length + bigEndian bs := Nat.le_add_right _ _

/-- The order of dictionaries is the order of numbers. -/
theorem bytesOrder_eq {as bs : Bytes} (hlength : as.length = bs.length) :
    bytesOrder as bs = compare (bigEndian as) (bigEndian bs) := by
  induction as generalizing bs with
  | nil =>
    obtain rfl : bs = [] := List.eq_nil_of_length_eq_zero hlength.symm
    rfl
  | cons a as ih =>
    obtain ⟨b, bs, rfl⟩ := List.exists_cons_of_length_eq_add_one hlength.symm
    have hrest : as.length = bs.length := Nat.succ.inj hlength
    unfold bytesOrder
    by_cases hlt : a < b
    · rw [if_pos hlt]
      exact (Nat.compare_eq_lt.mpr (bigEndian_lt_of_head_lt hlt hrest)).symm
    · by_cases hgt : b < a
      · rw [if_neg hlt, if_pos hgt]
        exact (Nat.compare_eq_gt.mpr (bigEndian_lt_of_head_lt hgt hrest.symm)).symm
      · -- the first bytes are equal and count the same, so the rest decides
        have heq : a = b := by
          have hle := UInt8.not_lt.mp hlt
          have hge := UInt8.not_lt.mp hgt
          exact UInt8.le_antisymm hge hle
        rw [if_neg hlt, if_neg hgt, ih hrest, heq, bigEndian_cons, bigEndian_cons, hrest]
        simp only [Nat.compare_eq_ite_lt, Nat.add_lt_add_iff_left]

/-- Runs of the same length that spell the same number are the same. -/
theorem bigEndian_eq_iff {as bs : Bytes} (hlength : as.length = bs.length) :
    bigEndian as = bigEndian bs ↔ as = bs := by
  constructor
  · intro h
    induction as generalizing bs with
    | nil => exact (List.eq_nil_of_length_eq_zero hlength.symm).symm
    | cons a as ih =>
      obtain ⟨b, bs, rfl⟩ := List.exists_cons_of_length_eq_add_one hlength.symm
      have hrest : as.length = bs.length := Nat.succ.inj hlength
      have hle : b ≤ a := UInt8.not_lt.mp fun hlt =>
        Nat.ne_of_lt (bigEndian_lt_of_head_lt hlt hrest) h
      have hge : a ≤ b := UInt8.not_lt.mp fun hlt =>
        Nat.ne_of_gt (bigEndian_lt_of_head_lt hlt hrest.symm) h
      obtain rfl : a = b := UInt8.le_antisymm hge hle
      rw [bigEndian_cons, bigEndian_cons, hrest] at h
      rw [ih hrest (Nat.add_left_cancel h)]
  · intro h
    rw [h]

/-! ### Operators as relations -/

/-- The relation of an operator between two numbers. -/
def CompareOp.Relates : CompareOp → Nat → Nat → Prop
  | .eq, a, b => a = b
  | .ne, a, b => a ≠ b
  | .lt, a, b => a < b
  | .le, a, b => a ≤ b
  | .gt, a, b => a > b
  | .ge, a, b => a ≥ b

instance (op : CompareOp) (a b : Nat) : Decidable (op.Relates a b) :=
  match op with
  | .eq => inferInstanceAs (Decidable (a = b))
  | .ne => inferInstanceAs (Decidable (a ≠ b))
  | .lt => inferInstanceAs (Decidable (a < b))
  | .le => inferInstanceAs (Decidable (a ≤ b))
  | .gt => inferInstanceAs (Decidable (a > b))
  | .ge => inferInstanceAs (Decidable (a ≥ b))

theorem CompareOp.holds_compare (op : CompareOp) (a b : Nat) :
    op.holds (compare a b) = true ↔ op.Relates a b := by
  rcases Nat.lt_trichotomy a b with h | h | h
  · rw [Nat.compare_eq_lt.mpr h]
    cases op <;> simp [holds, Relates] <;> omega
  · rw [Nat.compare_eq_eq.mpr h]
    cases op <;> simp [holds, Relates] <;> omega
  · rw [Nat.compare_eq_gt.mpr h]
    cases op <;> simp [holds, Relates] <;> omega

end RuleChain
