import Ilic.Foundation.Binary64
import Ilic.Repository.Md5

/-! # The checksum in JavaScript

All numbers are doubles.  The operators on bits take their operands modulo `2 ^ 32` and give
signed numbers, but for the shift to the right without sign.  Sums of a few numbers of 32 bits
are exact; what is computed from the length of the input is rounded.
-/

namespace Ilic.RepositoryCore.Md5
open Foundation Binary64 MessageDigest Diagnostics

/-! ## Numbers -/

def bitAnd (x y : ℤ) : ℤ := (BitVec.ofInt 32 x &&& BitVec.ofInt 32 y).toInt

def bitOr (x y : ℤ) : ℤ := (BitVec.ofInt 32 x ||| BitVec.ofInt 32 y).toInt

def bitXor (x y : ℤ) : ℤ := (BitVec.ofInt 32 x ^^^ BitVec.ofInt 32 y).toInt

def bitNot (x : ℤ) : ℤ := (~~~BitVec.ofInt 32 x).toInt

/-- `x << count`. -/
def shiftLeft (x : ℤ) (count : ℕ) : ℤ := (BitVec.ofInt 32 x <<< (count % 32)).toInt

/-- `x >>> count`. -/
def shiftRight (x : ℤ) (count : ℕ) : ℤ := ((BitVec.ofInt 32 x >>> (count % 32)).toNat : ℤ)

/-! ## The function -/

def shifts : List ℕ :=
  [7, 12, 17, 22, 7, 12, 17, 22, 7, 12, 17, 22, 7, 12, 17, 22,
   5, 9, 14, 20, 5, 9, 14, 20, 5, 9, 14, 20, 5, 9, 14, 20,
   4, 11, 16, 23, 4, 11, 16, 23, 4, 11, 16, 23, 4, 11, 16, 23,
   6, 10, 15, 21, 6, 10, 15, 21, 6, 10, 15, 21, 6, 10, 15, 21]

/-- `Math.sin` gives a double, and multiplication by a power of two does not round it. -/
def constants (sin : ℕ → ℚ) : List ℤ :=
  (List.range 64).map fun index => shiftRight ⌊|sin (index + 1)| * 0x100000000⌋ 0

def rotate (value : ℤ) (count : ℕ) : ℤ :=
  shiftRight (bitOr (shiftLeft value count) (shiftRight value (32 - count))) 0

def paddedLength (length : ℕ) : ℕ :=
  (nearest (⌈nearest (nearest (length + 9) / 64)⌉ * 64)).num.toNat

def bitLength (length : ℕ) : ℚ := nearest (length * 8)

/-- `DataView.setUint32` with the low-order byte first. -/
def setUint32 (bytes : List UInt8) (offset : ℕ) (value : ℤ) : List UInt8 :=
  (List.range 4).foldl
    (fun bytes i => bytes.set (offset + i) (UInt8.ofNat ((value % 2 ^ 32).toNat / 256 ^ i))) bytes

/-- `DataView.getUint32` with the low-order byte first. -/
def getUint32 (bytes : List UInt8) (offset : ℕ) : ℤ := wordNumber bytes offset

def padded (input : List UInt8) : List UInt8 :=
  let length := paddedLength input.length
  let padded := input ++ (List.replicate length 0).drop input.length
  let padded := padded.set input.length 0x80
  let padded := setUint32 padded (length - 8) (shiftRight ⌊bitLength input.length⌋ 0)
  setUint32 padded (length - 4) ⌊nearest (bitLength input.length / 0x100000000)⌋

structure Variables where
  a : ℤ
  b : ℤ
  c : ℤ
  d : ℤ

/-- One turn of the loop over the operations. -/
def turn (constants : List ℤ) (words : ℕ → ℤ) (v : Variables) (index : ℕ) : Variables :=
  let (f, g) :=
    if index < 16 then (bitOr (bitAnd v.b v.c) (bitAnd (bitNot v.b) v.d), index)
    else if index < 32 then
      (bitOr (bitAnd v.d v.b) (bitAnd (bitNot v.d) v.c), (5 * index + 1) % 16)
    else if index < 48 then (bitXor (bitXor v.b v.c) v.d, (3 * index + 5) % 16)
    else (bitXor v.c (bitOr v.b (bitNot v.d)), (7 * index) % 16)
  let sum := shiftRight (v.a + f + constants.getD index 0 + words g) 0
  { a := v.d, d := v.c, c := v.b, b := shiftRight (v.b + rotate sum (shifts.getD index 0)) 0 }

def block (constants : List ℤ) (padded : List UInt8) (v : Variables) (offset : ℕ) : Variables :=
  let words (index : ℕ) := getUint32 padded (offset + index * 4)
  let w := (List.range 64).foldl (turn constants words) v
  { a := shiftRight (v.a + w.a) 0
    b := shiftRight (v.b + w.b) 0
    c := shiftRight (v.c + w.c) 0
    d := shiftRight (v.d + w.d) 0 }

/-- `toString(16).padStart(2, "0")`. -/
def hex (value : ℤ) : Text := (Nat.toDigits 16 value.toNat).leftpad 2 '0'

def md5 (sin : ℕ → ℚ) (input : List UInt8) : Text :=
  let padded := padded input
  let v := (List.range ((paddedLength input.length + 63) / 64)).foldl
    (fun v n => block (constants sin) padded v (64 * n))
    ⟨0x67452301, 0xefcdab89, 0x98badcfe, 0x10325476⟩
  [v.a, v.b, v.c, v.d].flatMap fun (value : ℤ) =>
    [0, 8, 16, 24].flatMap fun shift => hex (bitAnd (shiftRight value shift) 0xff)

/-! ## Padding -/

theorem nearest_div {n : ℕ} (h : n ≤ 2 ^ 53) {k : ℕ} (hk : k ≤ 1074) :
    nearest ((n : ℚ) / 2 ^ k) = (n : ℚ) / 2 ^ k := by
  have hrepresentable : Representable (((n : ℤ) : ℚ) / 2 ^ k) :=
    representable_div_two_pow (by rw [abs_of_nonneg (Int.natCast_nonneg n)]; exact_mod_cast h) hk
  rw [Int.cast_natCast] at hrepresentable
  exact nearest_of_representable hrepresentable

theorem nearest_natCast {n : ℕ} (h : n ≤ 2 ^ 53) : nearest (n : ℚ) = n := by
  simpa using nearest_div h (Nat.zero_le 1074)

section Length
variable {length : ℕ} (h : length < 2 ^ 50)
include h

theorem bitLength_eq : bitLength length = (8 * length : ℕ) := by
  have hcast : (length : ℚ) * 8 = (8 * length : ℕ) := by push_cast; ring
  rw [bitLength, hcast, nearest_natCast (by omega)]

theorem paddedLength_eq : paddedLength length = length + 1 + zeros length + 8 := by
  have hsum : (length : ℚ) + 9 = (length + 9 : ℕ) := by push_cast; ring
  have hdiv : nearest (((length + 9 : ℕ) : ℚ) / 64) = ((length + 9 : ℕ) : ℚ) / (64 : ℕ) := by
    have := nearest_div (n := length + 9) (by omega) (k := 6) (by omega)
    norm_num at this ⊢
    exact this
  have hceil : ⌈((length + 9 : ℕ) : ℚ) / (64 : ℕ)⌉ = ((length + 72) / 64 : ℕ) := by
    have hlower : (length + 72) / 64 * 64 < length + 9 + 64 := by omega
    have hupper : length + 9 ≤ (length + 72) / 64 * 64 := by omega
    rw [Int.ceil_eq_iff, Int.cast_natCast, lt_div_iff₀ (by norm_num), div_le_iff₀ (by norm_num)]
    constructor
    · have hcast : (((length + 72) / 64 : ℕ) : ℚ) * 64 < ((length + 9 : ℕ) : ℚ) + 64 := by
        exact_mod_cast hlower
      push_cast at hcast ⊢
      linarith
    · exact_mod_cast hupper
  have hmul : (((length + 72) / 64 : ℕ) : ℚ) * 64 = ((length + 72) / 64 * 64 : ℕ) := by
    push_cast
    ring
  rw [paddedLength, hsum, nearest_natCast (by omega), hdiv, hceil, Int.cast_natCast, hmul,
    nearest_natCast (by omega), Rat.num_natCast, Int.toNat_natCast, zeros]
  omega

end Length

theorem setUint32_append (front after : List UInt8) {old : List UInt8} (hold : old.length = 4)
    (value : ℤ) :
    setUint32 (front ++ (old ++ after)) front.length value =
      front ++ (littleEndian 4 (value % 2 ^ 32).toNat ++ after) := by
  obtain ⟨x0, x1, x2, x3, rfl⟩ : ∃ x0 x1 x2 x3, old = [x0, x1, x2, x3] := by
    match old, hold with
    | [x0, x1, x2, x3], _ => exact ⟨x0, x1, x2, x3, rfl⟩
  simp [setUint32, littleEndian, List.range_succ]

theorem low_word (n : ℕ) : (shiftRight ⌊((n : ℕ) : ℚ)⌋ 0 % 2 ^ 32).toNat = n % 256 ^ 4 := by
  rw [Int.floor_natCast, shiftRight, BitVec.ofInt_natCast, Nat.zero_mod, BitVec.ushiftRight_zero,
    BitVec.toNat_ofNat]
  omega

theorem high_word {n : ℕ} (h : n ≤ 2 ^ 53) :
    (⌊nearest ((n : ℚ) / 0x100000000)⌋ % 2 ^ 32).toNat = n / 256 ^ 4 % 256 ^ 4 := by
  have hdiv : nearest ((n : ℚ) / 0x100000000) = (n : ℚ) / (256 ^ 4 : ℕ) := by
    have hpow := nearest_div h (k := 32) (by omega)
    norm_num at hpow ⊢
    exact hpow
  rw [hdiv, Rat.floor_natCast_div_natCast]
  omega

theorem padded_eq {input : List UInt8} (h : input.length < 2 ^ 50) : padded input = pad input := by
  have hlength := paddedLength_eq h
  have hbits := bitLength_eq h
  have hzeros : (List.replicate (paddedLength input.length) (0 : UInt8)).drop input.length =
      0 :: (List.replicate (zeros input.length) 0 ++
        (List.replicate 4 0 ++ List.replicate 4 0)) := by
    have hcount : paddedLength input.length - input.length =
        (zeros input.length + (4 + 4)) + 1 := by
      omega
    rw [List.drop_replicate, hcount, List.replicate_succ, List.replicate_add]
    rfl
  have hmark : ∀ rest : List UInt8, (input ++ 0 :: rest).set input.length 0x80 =
      input ++ 0x80 :: rest := by
    intro rest
    rw [List.set_append_right _ _ (Nat.le_refl _), Nat.sub_self, List.set_cons_zero]
  -- the two words of the length are written one behind the other
  obtain ⟨front, hfront⟩ : ∃ front, front = input ++ 0x80 :: List.replicate (zeros input.length) 0 :=
    ⟨_, rfl⟩
  have hsplit : input ++ 0x80 :: (List.replicate (zeros input.length) 0 ++
      (List.replicate 4 0 ++ List.replicate 4 0)) =
        front ++ (List.replicate 4 0 ++ List.replicate 4 0) := by
    rw [hfront, List.append_assoc, List.cons_append]
  have hfrontLength : paddedLength input.length - 8 = front.length := by
    rw [hfront, List.length_append, List.length_cons, List.length_replicate]
    omega
  have hlowLength (low : ℕ) : paddedLength input.length - 4 =
      (front ++ littleEndian 4 low).length := by
    rw [List.length_append, length_littleEndian]
    omega
  have hlast (low : ℕ) : front ++ (littleEndian 4 low ++ List.replicate 4 0) =
      (front ++ littleEndian 4 low) ++ (List.replicate 4 0 ++ []) := by
    rw [List.append_nil, List.append_assoc]
  rw [padded]
  simp only [hzeros, hmark, hsplit, hbits]
  rw [hfrontLength, setUint32_append _ _ List.length_replicate, low_word, littleEndian_mod,
    hlowLength (8 * input.length), hlast, setUint32_append _ _ List.length_replicate,
    high_word (by omega), littleEndian_mod, List.append_nil, List.append_assoc,
    ← littleEndian_add, hfront, pad, List.append_assoc, List.cons_append]

/-! ## Rounds -/

def number (w : Word) : ℤ := w.toNat

@[simp] theorem ofInt_number (w : Word) : BitVec.ofInt 32 (number w) = w := by
  rw [number, BitVec.ofInt_natCast, BitVec.ofNat_toNat, BitVec.setWidth_eq]

@[simp] theorem ofInt_bitAnd (x y : ℤ) :
    BitVec.ofInt 32 (bitAnd x y) = BitVec.ofInt 32 x &&& BitVec.ofInt 32 y :=
  BitVec.ofInt_toInt

@[simp] theorem ofInt_bitOr (x y : ℤ) :
    BitVec.ofInt 32 (bitOr x y) = BitVec.ofInt 32 x ||| BitVec.ofInt 32 y :=
  BitVec.ofInt_toInt

@[simp] theorem ofInt_bitXor (x y : ℤ) :
    BitVec.ofInt 32 (bitXor x y) = BitVec.ofInt 32 x ^^^ BitVec.ofInt 32 y :=
  BitVec.ofInt_toInt

@[simp] theorem ofInt_bitNot (x : ℤ) : BitVec.ofInt 32 (bitNot x) = ~~~BitVec.ofInt 32 x :=
  BitVec.ofInt_toInt

@[simp] theorem ofInt_shiftLeft (x : ℤ) (count : ℕ) :
    BitVec.ofInt 32 (shiftLeft x count) = BitVec.ofInt 32 x <<< (count % 32) :=
  BitVec.ofInt_toInt

theorem shiftRight_eq (x : ℤ) (count : ℕ) :
    shiftRight x count = number (BitVec.ofInt 32 x >>> (count % 32)) := rfl

/-- `x >>> 0` makes a number unsigned. -/
theorem shiftRight_zero (x : ℤ) : shiftRight x 0 = number (BitVec.ofInt 32 x) := by
  rw [shiftRight_eq, Nat.zero_mod, BitVec.ushiftRight_zero]

theorem rotate_number (w : Word) {count : ℕ} (hpos : 0 < count) (hlt : count < 32) :
    rotate (number w) count = number (w.rotateLeft count) := by
  rw [rotate, shiftRight_zero, ofInt_bitOr, ofInt_shiftLeft, shiftRight_eq, ofInt_number,
    ofInt_number, Nat.mod_eq_of_lt hlt, Nat.mod_eq_of_lt (by omega), ← Repository.Md5.rotate_eq hlt]
  rfl

def variablesOf (r : Registers) : Variables := ⟨number r.a, number r.b, number r.c, number r.d⟩

theorem turn_eq {words : ℕ → ℤ} {x : ℕ → Word} (hwords : ∀ g, words g = number (x g))
    (r : Registers) {i : ℕ} (hi : i < 64) :
    turn (Repository.Md5.constants.map number) words (variablesOf r) i =
      variablesOf (stepAt x r i) := by
  have hshift : ∀ i < 64, shifts.getD i 0 = shiftAt i ∧ 0 < shiftAt i ∧ shiftAt i < 32 := by decide
  obtain ⟨hs, hpos, hlt⟩ := hshift i hi
  have hconstant : (Repository.Md5.constants.map number).getD i 0 =
      number (table.getD i 0) := by
    have hzero : (0 : ℤ) = number 0 := rfl
    rw [List.getD_eq_getElem?_getD, List.getElem?_map, hzero, Option.getD_map,
      ← List.getD_eq_getElem?_getD]
    rfl
  have hstep : ∀ (f : ℤ) (w : Word), BitVec.ofInt 32 f = w → ∀ g,
      shiftRight (number r.b + rotate (shiftRight (number r.a + f + number (table.getD i 0) +
        words g) 0) (shiftAt i)) 0 =
          number (r.b + (r.a + w + (x g + table.getD i 0)).rotateLeft (shiftAt i)) := by
    intro f w hf g
    have hsum : r.a + w + table.getD i 0 + x g = r.a + w + (x g + table.getD i 0) := by ac_rfl
    rw [shiftRight_zero, shiftRight_zero, rotate_number _ hpos hlt, hwords]
    simp only [BitVec.ofInt_add, ofInt_number, hf, hsum]
  simp only [turn, stepAt, Registers.step, functionAt, wordIndex, hs, hconstant, variablesOf]
  split_ifs with h1 h2 h3
  · rw [hstep _ (functionF r.b r.c r.d) (by simp [functionF])]
  · rw [hstep _ (functionG r.b r.c r.d) (by simp [functionG, BitVec.and_comm])]
  · rw [hstep _ (functionH r.b r.c r.d) (by simp [functionH])]
  · rw [hstep _ (functionI r.b r.c r.d) (by simp [functionI])]

theorem foldl_turn {words : ℕ → ℤ} {x : ℕ → Word} (hwords : ∀ g, words g = number (x g))
    {l : List ℕ} (hl : ∀ i ∈ l, i < 64) (r : Registers) :
    l.foldl (turn (Repository.Md5.constants.map number) words) (variablesOf r) =
      variablesOf (l.foldl (stepAt x) r) := by
  induction l generalizing r with
  | nil => rfl
  | cons i l ih =>
    obtain ⟨hi, hl⟩ := List.forall_mem_cons.mp hl
    rw [List.foldl_cons, List.foldl_cons, turn_eq hwords r hi, ih hl]

theorem block_eq (bytes : List UInt8) (r : Registers) (n : ℕ) :
    block (Repository.Md5.constants.map number) bytes (variablesOf r) (64 * n) =
      variablesOf (processBlock r fun j => word bytes (16 * n + j)) := by
  have hwords : ∀ j, getUint32 bytes (64 * n + j * 4) = number (word bytes (16 * n + j)) := by
    intro j
    have hoffset : 64 * n + j * 4 = 4 * (16 * n + j) := by omega
    rw [getUint32, number, word, BitVec.toNat_ofNat, Nat.mod_eq_of_lt (wordNumber_lt _ _), hoffset]
  have hadd : ∀ w w' : Word, shiftRight (number w + number w') 0 = number (w + w') := by
    intro w w'
    rw [shiftRight_zero, BitVec.ofInt_add, ofInt_number, ofInt_number]
  rw [processBlock_eq]
  simp only [block]
  rw [foldl_turn hwords (fun i hi => List.mem_range.mp hi)]
  simp only [variablesOf, Registers.add, hadd]

theorem hex_eq (value : Word) {shift : ℕ} (hshift : shift < 32) :
    hex (bitAnd (shiftRight (number value) shift) 0xff) =
      hexByte (value.toNat / 2 ^ shift % 256) := by
  have hbyte : (BitVec.ofInt 32 0xff).toNat = 2 ^ 8 - 1 := rfl
  have htoNat : (value >>> shift &&& BitVec.ofInt 32 0xff).toNat =
      value.toNat / 2 ^ shift % 256 := by
    rw [BitVec.toNat_and, BitVec.toNat_ushiftRight, hbyte, Nat.and_two_pow_sub_one_eq_mod,
      Nat.shiftRight_eq_div_pow]
  have hlt := Nat.mod_lt (value.toNat / 2 ^ shift) (by decide : 0 < 256)
  rw [hex, bitAnd, shiftRight_eq, ofInt_number, ofInt_number, Nat.mod_eq_of_lt hshift,
    BitVec.toInt_eq_toNat_of_lt (by omega), Int.toNat_natCast, htoNat, leftpad_toDigits hlt]

theorem flatMap_hex (r : Registers) :
    ([number r.a, number r.b, number r.c, number r.d].flatMap fun (value : ℤ) =>
      [0, 8, 16, 24].flatMap fun shift => hex (bitAnd (shiftRight value shift) 0xff)) =
        r.bytes.flatMap hexByte := by
  have hnumbers : [number r.a, number r.b, number r.c, number r.d] =
      [r.a, r.b, r.c, r.d].map number := rfl
  have hshifts : [0, 8, 16, 24] = (List.range 4).map (8 * ·) := rfl
  rw [hnumbers, hshifts, Registers.bytes, List.flatMap_assoc, List.flatMap_map]
  apply congrArg fun f => List.flatMap f [r.a, r.b, r.c, r.d]
  funext value
  rw [List.flatMap_map, List.flatMap_map]
  apply List.flatMap_congr
  intro i hi
  have hshift : 8 * i < 32 := by
    have := List.mem_range.mp hi
    omega
  have hpow : 2 ^ (8 * i) = 256 ^ i := Nat.pow_mul 2 8 i
  rw [hex_eq value hshift, hpow]

/-- The checksum is the digest, if the constants are those of its table. -/
theorem md5_eq_hexDigest {sin : ℕ → ℚ}
    (hsin : constants sin = Repository.Md5.constants.map number) {input : List UInt8}
    (hinput : input.length < 2 ^ 50) : md5 sin input = hexDigest input := by
  have hlength : paddedLength input.length = (pad input).length := by
    rw [paddedLength_eq hinput, length_pad]
  have hblocks : ((pad input).length + 63) / 64 = (pad input).length / 64 := by
    have hmod := length_pad_mod input
    omega
  have hvariables : ∀ (l : List ℕ) (r : Registers),
      l.foldl (fun v n => block (Repository.Md5.constants.map number) (pad input) v (64 * n))
          (variablesOf r) =
        variablesOf (l.foldl
          (fun r n => processBlock r fun j => word (pad input) (16 * n + j)) r) := by
    intro l
    induction l with
    | nil => exact fun r => rfl
    | cons n l ih =>
      intro r
      rw [List.foldl_cons, List.foldl_cons, block_eq, ih]
  have hrun := hvariables (List.range ((pad input).length / 64)) initial
  have hinitial : variablesOf initial =
      ⟨0x67452301, 0xefcdab89, 0x98badcfe, 0x10325476⟩ := rfl
  rw [hinitial] at hrun
  rw [md5, padded_eq hinput, hsin, hlength, hblocks, hrun]
  exact flatMap_hex (processMessage (pad input))

/-- Both functions compute the digest, if the sines give the constants of the table. -/
theorem md5_agree (sin : ℕ → ℚ) (hsin : constants sin = Repository.Md5.constants.map number)
    (input : List UInt8) (hinput : input.length < 2 ^ 50) :
    md5 sin input = Repository.Md5.md5 input ∧ md5 sin input = hexDigest input ∧
      (md5 sin input).length = 32 := by
  have hjavaScript := md5_eq_hexDigest hsin hinput
  rw [hjavaScript]
  exact ⟨(Repository.Md5.md5_eq_hexDigest input).symm, rfl, length_hexDigest input⟩

/-- The sines of 1 to 64 as doubles, in units of `2 ^ -58`. -/
def sineNumerators : List ℤ :=
  [242537498471931328, 262087139367749824, 40675073005628120, -218133467895158208,
   -276391104387163744, -80536034148494336, 189363494475350272, 285163099573055328,
   118785066020305168, -156803409426115136, -288227553382137184, -154656613988086944,
   121104903071092832, 285523130750584992, 187432708775369984, -82982481257697152,
   -277103960715756896, -216457336622138560, 43199164517721720, 263138553023142912,
   241149569404698016, -2551216206208250, -243906425402662976, -261015191916020192,
   -38147794715018472, 219792509019402336, 275656593586472448, 78083277265653088,
   -191279444073725152, -284780726662072224, -116455922490918928, 158937919754382528,
   288204971557275392, 152497701635732512, -123415251890519680, -285860791987222656,
   -185487238245458400, 85422426920954320, 277795106721946944, 214764246520553472,
   -45719871495769664, -264169350506872224, -239742746941334112, 5102232531742785,
   245256242945286240, 259922794652046880, 35617527651097560, -221434330013626400,
   -274900485860555488, -75624402775833728, 193180407461187648, 284376041975486688,
   114117654964833024, -161059977739958592, -288159809676774784, -150326841513812800,
   125715931469199872, 286176056828152256, 183527235307805024, -87855679975328800,
   -278464488256372032, -213054330239289824, 48236996449411176, 265179451058830080]

def sines (i : ℕ) : ℚ := sineNumerators.getD (i - 1) 0 / 2 ^ 58

theorem constants_sines : constants sines = Repository.Md5.constants.map number := by
  have hfloor : ∀ m : ℤ, ⌊|(m : ℚ) / 2 ^ 58| * 0x100000000⌋ = |m| / 2 ^ 26 := by
    intro m
    have hpow : |(m : ℚ) / 2 ^ 58| * 0x100000000 = (|m| : ℤ) / ((2 ^ 26 : ℕ) : ℚ) := by
      rw [abs_div, Int.cast_abs]
      norm_num
      ring
    rw [hpow, Rat.floor_intCast_div_natCast]
    rfl
  simp only [constants, sines, hfloor, Nat.add_sub_cancel]
  decide

theorem md5_agree_abc :
    md5 sines [0x61, 0x62, 0x63] = Repository.Md5.md5 [0x61, 0x62, 0x63] ∧
      md5 sines [0x61, 0x62, 0x63] = hexDigest [0x61, 0x62, 0x63] ∧
      (md5 sines [0x61, 0x62, 0x63]).length = 32 :=
  md5_agree sines constants_sines [0x61, 0x62, 0x63] (by decide)

end Ilic.RepositoryCore.Md5
