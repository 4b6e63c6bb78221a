import Ilic.Diagnostics.Pipeline
import Ilic.Foundation.MessageDigest

/-! # The checksum of the repositories

`repository::md5` computes the digest of a string, with a loop for the padding and one for the
operations, in which the registers change their places.
-/

namespace Ilic.Repository.Md5
open Foundation MessageDigest Diagnostics

def rotate (value : Word) (count : ℕ) : Word := (value <<< count) ||| (value >>> (32 - count))

def shifts : List ℕ :=
  [7, 12, 17, 22, 7, 12, 17, 22, 7, 12, 17, 22, 7, 12, 17, 22,
   5, 9, 14, 20, 5, 9, 14, 20, 5, 9, 14, 20, 5, 9, 14, 20,
   4, 11, 16, 23, 4, 11, 16, 23, 4, 11, 16, 23, 4, 11, 16, 23,
   6, 10, 15, 21, 6, 10, 15, 21, 6, 10, 15, 21, 6, 10, 15, 21]

def constants : List Word :=
  [0xd76aa478, 0xe8c7b756, 0x242070db, 0xc1bdceee, 0xf57c0faf, 0x4787c62a, 0xa8304613, 0xfd469501,
   0x698098d8, 0x8b44f7af, 0xffff5bb1, 0x895cd7be, 0x6b901122, 0xfd987193, 0xa679438e, 0x49b40821,
   0xf61e2562, 0xc040b340, 0x265e5a51, 0xe9b6c7aa, 0xd62f105d, 0x02441453, 0xd8a1e681, 0xe7d3fbc8,
   0x21e1cde6, 0xc33707d6, 0xf4d50d87, 0x455a14ed, 0xa9e3e905, 0xfcefa3f8, 0x676f02d9, 0x8d2a4c8a,
   0xfffa3942, 0x8771f681, 0x6d9d6122, 0xfde5380c, 0xa4beea44, 0x4bdecfa9, 0xf6bb4b60, 0xbebfbc70,
   0x289b7ec6, 0xeaa127fa, 0xd4ef3085, 0x04881d05, 0xd9d4d039, 0xe6db99e5, 0x1fa27cf8, 0xc4ac5665,
   0xf4292244, 0x432aff97, 0xab9423a7, 0xfc93a039, 0x655b59c3, 0x8f0ccc92, 0xffeff47d, 0x85845dd1,
   0x6fa87e4f, 0xfe2ce6e0, 0xa3014314, 0x4e0811a1, 0xf7537e82, 0xbd3af235, 0x2ad7d2bb, 0xeb86d391]

/-- The loop that appends zero bytes. -/
def padZeros (message : List UInt8) : List UInt8 :=
  if message.length % 64 ≠ 56 then padZeros (message ++ [0]) else message
termination_by (120 - message.length % 64) % 64
decreasing_by
  rw [List.length_append, List.length_singleton]
  omega

def padded (data : List UInt8) : List UInt8 :=
  let bitLength : BitVec 64 := BitVec.ofNat 64 data.length * 8
  (List.range 8).foldl
    (fun message i => message ++ [UInt8.ofBitVec (((bitLength >>> (8 * i)) &&& 0xff).setWidth 8)])
    (padZeros (data ++ [0x80]))

def wordAt (message : List UInt8) (offset i : ℕ) : Word :=
  let byte (j : ℕ) : Word := (message.getD (offset + i * 4 + j) 0).toBitVec.setWidth 32
  byte 0 ||| (byte 1 <<< 8) ||| (byte 2 <<< 16) ||| (byte 3 <<< 24)

/-- One turn of the loop over the operations, on the variables `a`, `b`, `c` and `d`. -/
def turn (words : ℕ → Word) (r : Registers) (i : ℕ) : Registers :=
  let (f, g) :=
    if i < 16 then ((r.b &&& r.c) ||| (~~~r.b &&& r.d), i)
    else if i < 32 then ((r.d &&& r.b) ||| (~~~r.d &&& r.c), (5 * i + 1) % 16)
    else if i < 48 then (r.b ^^^ r.c ^^^ r.d, (3 * i + 5) % 16)
    else (r.c ^^^ (r.b ||| ~~~r.d), (7 * i) % 16)
  let f := f + (r.a + constants.getD i 0 + words g)
  { a := r.d, d := r.c, c := r.b, b := r.b + rotate f (shifts.getD i 0) }

def block (message : List UInt8) (r : Registers) (offset : ℕ) : Registers :=
  r.add ((List.range 64).foldl (turn (wordAt message offset)) r)

/-- `std::hex` with a width of 2, filled with zeros. -/
def hex (value : Word) : Text := (Nat.toDigits 16 value.toNat).leftpad 2 '0'

def md5 (data : List UInt8) : Text :=
  let message := padded data
  let r := (List.range ((message.length + 63) / 64)).foldl
    (fun r n => block message r (64 * n)) ⟨0x67452301, 0xefcdab89, 0x98badcfe, 0x10325476⟩
  [r.a, r.b, r.c, r.d].flatMap fun (value : Word) =>
    (List.range 4).flatMap fun i => hex ((value >>> (8 * i)) &&& 0xff)

/-! ## Padding -/

theorem padZeros_eq (message : List UInt8) :
    padZeros message =
      message ++ List.replicate ((120 - message.length % 64) % 64) (0 : UInt8) := by
  fun_induction padZeros message with
  | case1 message h ih =>
    rw [ih, List.append_assoc, List.length_append, List.length_singleton]
    have hcount : (120 - message.length % 64) % 64 =
        (120 - (message.length + 1) % 64) % 64 + 1 := by
      omega
    rw [hcount, List.replicate_succ, List.singleton_append]
  | case2 message h =>
    have hcount : (120 - message.length % 64) % 64 = 0 := by
      omega
    rw [hcount, List.replicate_zero, List.append_nil]

theorem toNat_lengthByte (n : ℕ) {i : ℕ} (hi : i < 8) :
    (UInt8.ofBitVec ((((BitVec.ofNat 64 n * 8) >>> (8 * i)) &&& 0xff).setWidth 8)).toNat =
      (UInt8.ofNat (8 * n / 256 ^ i)).toNat := by
  have hlow : (BitVec.ofNat 64 n * 8).toNat = 8 * n % 2 ^ 64 := by
    rw [BitVec.toNat_mul, BitVec.toNat_ofNat, Nat.mod_mul_mod, Nat.mul_comm]
    rfl
  have hbyte : (0xff : BitVec 64).toNat = 2 ^ 8 - 1 := rfl
  have hpow : 2 ^ 64 = 2 ^ (8 * i) * 2 ^ (64 - 8 * i) := by
    rw [← Nat.pow_add]
    congr 1
    omega
  rw [UInt8.toNat_ofBitVec, BitVec.toNat_setWidth, BitVec.toNat_and, BitVec.toNat_ushiftRight, hlow,
    hbyte, Nat.and_two_pow_sub_one_eq_mod, Nat.mod_mod, Nat.shiftRight_eq_div_pow, hpow,
    Nat.mod_mul_right_div_self, Nat.mod_mod_of_dvd _ (Nat.pow_dvd_pow 2 (by omega)),
    UInt8.toNat_ofNat', Nat.pow_mul]

theorem padded_eq (data : List UInt8) : padded data = pad data := by
  have hzeros : (120 - (data ++ [(0x80 : UInt8)]).length % 64) % 64 = zeros data.length := by
    rw [List.length_append, List.length_singleton, zeros]
    omega
  have hbytes : ∀ (l : List ℕ) (f : ℕ → UInt8) (message : List UInt8),
      l.foldl (fun message i => message ++ [f i]) message = message ++ l.map f := by
    intro l f
    induction l with
    | nil => exact fun message => (List.append_nil message).symm
    | cons i l ih =>
      intro message
      rw [List.foldl_cons, ih, List.map_cons, List.append_assoc, List.singleton_append]
  rw [padded, hbytes, padZeros_eq, hzeros, pad, littleEndian, List.append_assoc, List.append_assoc,
    List.singleton_append]
  congr 3
  apply List.map_congr_left
  intro i hi
  exact UInt8.toNat_inj.mp (toNat_lengthByte data.length (List.mem_range.mp hi))

/-! ## Blocks -/

theorem toNat_or_shift {n k : ℕ} {x y : Word} (hx : x.toNat < 2 ^ k) (hy : y.toNat < 2 ^ n)
    (hk : n + k ≤ 32) : (x ||| (y <<< k)).toNat = x.toNat + 2 ^ k * y.toNat := by
  have hlt : y.toNat <<< k < 2 ^ 32 := by
    rw [Nat.shiftLeft_eq]
    calc y.toNat * 2 ^ k < 2 ^ n * 2 ^ k := Nat.mul_lt_mul_of_pos_right hy (Nat.two_pow_pos k)
      _ = 2 ^ (n + k) := (Nat.pow_add 2 n k).symm
      _ ≤ 2 ^ 32 := Nat.pow_le_pow_right (by decide) hk
  rw [BitVec.toNat_or, BitVec.toNat_shiftLeft, Nat.mod_eq_of_lt hlt, Nat.or_comm,
    ← Nat.shiftLeft_add_eq_or_of_lt hx, Nat.shiftLeft_eq, Nat.add_comm, Nat.mul_comm]

theorem wordAt_eq (message : List UInt8) (n i : ℕ) :
    wordAt message (64 * n) i = word message (16 * n + i) := by
  have hbyte : ∀ b : UInt8, (b.toBitVec.setWidth 32 : Word).toNat = b.toNat := by
    intro b
    rw [BitVec.toNat_setWidth, UInt8.toNat_toBitVec]
    exact Nat.mod_eq_of_lt (Nat.lt_trans b.toNat_lt (by decide))
  have hbound : ∀ b : UInt8, (b.toBitVec.setWidth 32 : Word).toNat < 2 ^ 8 :=
    fun b => (hbyte b).symm ▸ b.toNat_lt
  have hoffset : 64 * n + i * 4 = 4 * (16 * n + i) := by omega
  simp only [wordAt, word, wordNumber, hoffset, Nat.add_zero]
  generalize message.getD (4 * (16 * n + i)) 0 = b0
  generalize message.getD (4 * (16 * n + i) + 1) 0 = b1
  generalize message.getD (4 * (16 * n + i) + 2) 0 = b2
  generalize message.getD (4 * (16 * n + i) + 3) 0 = b3
  have h0 := b0.toNat_lt
  have h1 := b1.toNat_lt
  have h2 := b2.toNat_lt
  have h3 := b3.toNat_lt
  -- each byte lies above the bytes before it
  have hfirst := toNat_or_shift (hbound b0) (hbound b1) (by decide)
  have hsecond := toNat_or_shift (k := 16) (by rw [hfirst, hbyte, hbyte]; omega) (hbound b2)
    (by decide)
  have hthird := toNat_or_shift (k := 24) (by rw [hsecond, hfirst, hbyte, hbyte, hbyte]; omega)
    (hbound b3) (by decide)
  apply BitVec.eq_of_toNat_eq
  rw [hthird, hsecond, hfirst, hbyte, hbyte, hbyte, hbyte, BitVec.toNat_ofNat,
    Nat.mod_eq_of_lt (by omega)]

theorem rotate_eq {s : ℕ} (h : s < 32) (value : Word) : rotate value s = value.rotateLeft s := by
  rw [rotate, BitVec.rotateLeft_eq_rotateLeftAux_of_lt h]
  rfl

theorem turn_eq (words : ℕ → Word) (r : Registers) {i : ℕ} (hi : i < 64) :
    turn words r i = stepAt words r i := by
  have hshift : ∀ i < 64, shifts.getD i 0 = shiftAt i ∧ shiftAt i < 32 := by decide
  have hconstants : constants = table := rfl
  obtain ⟨hs, hlt⟩ := hshift i hi
  have hsum : ∀ f w : Word, f + (r.a + table.getD i 0 + w) = r.a + f + (w + table.getD i 0) := by
    intro f w
    ac_rfl
  simp only [turn, stepAt, Registers.step, functionAt, wordIndex, hs, hconstants, rotate_eq hlt]
  split_ifs with h1 h2 h3
  · simp only [hsum, functionF]
  · simp only [hsum, functionG, BitVec.and_comm]
  · simp only [hsum, functionH]
  · simp only [hsum, functionI]

theorem block_eq (message : List UInt8) (r : Registers) (n : ℕ) :
    block message r (64 * n) = processBlock r fun j => word message (16 * n + j) := by
  have hwords : wordAt message (64 * n) = fun j => word message (16 * n + j) :=
    funext (wordAt_eq message n)
  rw [block, processBlock_eq, hwords]
  apply congrArg r.add
  apply List.foldl_ext
  intro r i hi
  exact turn_eq _ r (List.mem_range.mp hi)

theorem hex_eq (value : Word) (i : ℕ) :
    hex ((value >>> (8 * i)) &&& 0xff) = hexByte (value.toNat / 256 ^ i % 256) := by
  have hbyte : (0xff : Word).toNat = 2 ^ 8 - 1 := rfl
  have hpow : 2 ^ (8 * i) = 256 ^ i := Nat.pow_mul 2 8 i
  rw [hex, BitVec.toNat_and, BitVec.toNat_ushiftRight, hbyte, Nat.and_two_pow_sub_one_eq_mod,
    Nat.shiftRight_eq_div_pow, hpow, leftpad_toDigits (Nat.mod_lt _ (by decide))]

/-- The checksum is the digest. -/
theorem md5_eq_hexDigest (data : List UInt8) : md5 data = hexDigest data := by
  have hblocks : ((pad data).length + 63) / 64 = (pad data).length / 64 := by
    have hmod := length_pad_mod data
    omega
  have hregisters : (List.range ((pad data).length / 64)).foldl
      (fun r n => block (pad data) r (64 * n)) ⟨0x67452301, 0xefcdab89, 0x98badcfe, 0x10325476⟩ =
        processMessage (pad data) := by
    simp only [block_eq, processMessage, initial]
  rw [md5, padded_eq, hblocks, hregisters, hexDigest, Registers.bytes]
  generalize processMessage (pad data) = r
  rw [List.flatMap_assoc]
  apply congrArg fun f => List.flatMap f [r.a, r.b, r.c, r.d]
  funext value
  rw [List.flatMap_map]
  apply congrArg fun f => List.flatMap f (List.range 4)
  exact funext (hex_eq value)

end Ilic.Repository.Md5
