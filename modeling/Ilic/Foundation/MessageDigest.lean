import Mathlib.Algebra.Ring.Nat
import Mathlib.Data.List.Range
import Mathlib.Data.Nat.Notation

/-! # The message digest MD5

The digest as its standard describes it: a message is padded to blocks of 16 words, each block
runs through four rounds of 16 operations on four registers, and the registers are written with
the byte of the lowest order first.
-/

namespace Ilic.Foundation.MessageDigest

abbrev Word := BitVec 32

structure Registers where
  a : Word
  b : Word
  c : Word
  d : Word
deriving DecidableEq

/-! ## The operations -/

def functionF (x y z : Word) : Word := (x &&& y) ||| (~~~x &&& z)

def functionG (x y z : Word) : Word := (x &&& z) ||| (y &&& ~~~z)

def functionH (x y z : Word) : Word := x ^^^ y ^^^ z

def functionI (x y z : Word) : Word := y ^^^ (x ||| ~~~z)

/-- The integer parts of `4294967296` times the absolute sines of 1 to 64. -/
def table : List Word :=
  [0xd76aa478, 0xe8c7b756, 0x242070db, 0xc1bdceee,
   0xf57c0faf, 0x4787c62a, 0xa8304613, 0xfd469501,
   0x698098d8, 0x8b44f7af, 0xffff5bb1, 0x895cd7be,
   0x6b901122, 0xfd987193, 0xa679438e, 0x49b40821,
   0xf61e2562, 0xc040b340, 0x265e5a51, 0xe9b6c7aa,
   0xd62f105d, 0x02441453, 0xd8a1e681, 0xe7d3fbc8,
   0x21e1cde6, 0xc33707d6, 0xf4d50d87, 0x455a14ed,
   0xa9e3e905, 0xfcefa3f8, 0x676f02d9, 0x8d2a4c8a,
   0xfffa3942, 0x8771f681, 0x6d9d6122, 0xfde5380c,
   0xa4beea44, 0x4bdecfa9, 0xf6bb4b60, 0xbebfbc70,
   0x289b7ec6, 0xeaa127fa, 0xd4ef3085, 0x04881d05,
   0xd9d4d039, 0xe6db99e5, 0x1fa27cf8, 0xc4ac5665,
   0xf4292244, 0x432aff97, 0xab9423a7, 0xfc93a039,
   0x655b59c3, 0x8f0ccc92, 0xffeff47d, 0x85845dd1,
   0x6fa87e4f, 0xfe2ce6e0, 0xa3014314, 0x4e0811a1,
   0xf7537e82, 0xbd3af235, 0x2ad7d2bb, 0xeb86d391]

/-- Which register stands in which place of an operation. -/
inductive Order where
  | abcd | dabc | cdab | bcda
deriving DecidableEq

/-- The operation `a = b + ((a + f(b,c,d) + term) <<< s)`, with the registers in this order. -/
def Order.perform (f : Word → Word → Word → Word) (term : Word) (s : ℕ) (r : Registers) :
    Order → Registers
  | abcd => { r with a := r.b + (r.a + f r.b r.c r.d + term).rotateLeft s }
  | dabc => { r with d := r.a + (r.d + f r.a r.b r.c + term).rotateLeft s }
  | cdab => { r with c := r.d + (r.c + f r.d r.a r.b + term).rotateLeft s }
  | bcda => { r with b := r.c + (r.b + f r.c r.d r.a + term).rotateLeft s }

/-- An operation `[abcd k s i]` on the word `k` of the block and the entry `i` of the table. -/
structure Operation where
  order : Order
  k : ℕ
  s : ℕ
  i : ℕ
deriving DecidableEq

def round1 : List Operation :=
  [⟨.abcd, 0, 7, 1⟩, ⟨.dabc, 1, 12, 2⟩, ⟨.cdab, 2, 17, 3⟩, ⟨.bcda, 3, 22, 4⟩,
   ⟨.abcd, 4, 7, 5⟩, ⟨.dabc, 5, 12, 6⟩, ⟨.cdab, 6, 17, 7⟩, ⟨.bcda, 7, 22, 8⟩,
   ⟨.abcd, 8, 7, 9⟩, ⟨.dabc, 9, 12, 10⟩, ⟨.cdab, 10, 17, 11⟩, ⟨.bcda, 11, 22, 12⟩,
   ⟨.abcd, 12, 7, 13⟩, ⟨.dabc, 13, 12, 14⟩, ⟨.cdab, 14, 17, 15⟩, ⟨.bcda, 15, 22, 16⟩]

def round2 : List Operation :=
  [⟨.abcd, 1, 5, 17⟩, ⟨.dabc, 6, 9, 18⟩, ⟨.cdab, 11, 14, 19⟩, ⟨.bcda, 0, 20, 20⟩,
   ⟨.abcd, 5, 5, 21⟩, ⟨.dabc, 10, 9, 22⟩, ⟨.cdab, 15, 14, 23⟩, ⟨.bcda, 4, 20, 24⟩,
   ⟨.abcd, 9, 5, 25⟩, ⟨.dabc, 14, 9, 26⟩, ⟨.cdab, 3, 14, 27⟩, ⟨.bcda, 8, 20, 28⟩,
   ⟨.abcd, 13, 5, 29⟩, ⟨.dabc, 2, 9, 30⟩, ⟨.cdab, 7, 14, 31⟩, ⟨.bcda, 12, 20, 32⟩]

def round3 : List Operation :=
  [⟨.abcd, 5, 4, 33⟩, ⟨.dabc, 8, 11, 34⟩, ⟨.cdab, 11, 16, 35⟩, ⟨.bcda, 14, 23, 36⟩,
   ⟨.abcd, 1, 4, 37⟩, ⟨.dabc, 4, 11, 38⟩, ⟨.cdab, 7, 16, 39⟩, ⟨.bcda, 10, 23, 40⟩,
   ⟨.abcd, 13, 4, 41⟩, ⟨.dabc, 0, 11, 42⟩, ⟨.cdab, 3, 16, 43⟩, ⟨.bcda, 6, 23, 44⟩,
   ⟨.abcd, 9, 4, 45⟩, ⟨.dabc, 12, 11, 46⟩, ⟨.cdab, 15, 16, 47⟩, ⟨.bcda, 2, 23, 48⟩]

def round4 : List Operation :=
  [⟨.abcd, 0, 6, 49⟩, ⟨.dabc, 7, 10, 50⟩, ⟨.cdab, 14, 15, 51⟩, ⟨.bcda, 5, 21, 52⟩,
   ⟨.abcd, 12, 6, 53⟩, ⟨.dabc, 3, 10, 54⟩, ⟨.cdab, 10, 15, 55⟩, ⟨.bcda, 1, 21, 56⟩,
   ⟨.abcd, 8, 6, 57⟩, ⟨.dabc, 15, 10, 58⟩, ⟨.cdab, 6, 15, 59⟩, ⟨.bcda, 13, 21, 60⟩,
   ⟨.abcd, 4, 6, 61⟩, ⟨.dabc, 11, 10, 62⟩, ⟨.cdab, 2, 15, 63⟩, ⟨.bcda, 9, 21, 64⟩]

def runRound (f : Word → Word → Word → Word) (x : ℕ → Word) (operations : List Operation)
    (r : Registers) : Registers :=
  operations.foldl
    (fun r op => op.order.perform f (x op.k + table.getD (op.i - 1) 0) op.s r) r

def Registers.add (r r' : Registers) : Registers :=
  ⟨r.a + r'.a, r.b + r'.b, r.c + r'.c, r.d + r'.d⟩

/-- A block of 16 words. -/
def processBlock (r : Registers) (x : ℕ → Word) : Registers :=
  r.add (runRound functionI x round4 (runRound functionH x round3
    (runRound functionG x round2 (runRound functionF x round1 r))))

/-! ## The message -/

/-- The number of zero bytes that make a message and one byte `56` modulo `64` long. -/
def zeros (length : ℕ) : ℕ := (119 - length % 64) % 64

/-- The bytes of a number, the low-order ones first. -/
def littleEndian (count n : ℕ) : List UInt8 :=
  (List.range count).map fun i => UInt8.ofNat (n / 256 ^ i)

def pad (message : List UInt8) : List UInt8 :=
  message ++ 0x80 :: (List.replicate (zeros message.length) 0 ++
    littleEndian 8 (8 * message.length))

/-- The number of four bytes, of which the first one is of the lowest order. -/
def wordNumber (bytes : List UInt8) (offset : ℕ) : ℕ :=
  (bytes.getD offset 0).toNat + 2 ^ 8 * (bytes.getD (offset + 1) 0).toNat +
    2 ^ 16 * (bytes.getD (offset + 2) 0).toNat + 2 ^ 24 * (bytes.getD (offset + 3) 0).toNat

def word (bytes : List UInt8) (n : ℕ) : Word := BitVec.ofNat 32 (wordNumber bytes (4 * n))

def initial : Registers := ⟨0x67452301, 0xefcdab89, 0x98badcfe, 0x10325476⟩

def processMessage (bytes : List UInt8) : Registers :=
  (List.range (bytes.length / 64)).foldl
    (fun r block => processBlock r fun j => word bytes (16 * block + j)) initial

def Registers.bytes (r : Registers) : List ℕ :=
  [r.a, r.b, r.c, r.d].flatMap fun value =>
    (List.range 4).map fun i => value.toNat / 256 ^ i % 256

def hexByte (n : ℕ) : List Char := [(n / 16).digitChar, (n % 16).digitChar]

/-- The digest of the message in 32 hexadecimal digits. -/
def hexDigest (message : List UInt8) : List Char :=
  (processMessage (pad message)).bytes.flatMap hexByte

/-! ## The operations in turn

With the registers in the places of the next operation, all operations are of one form.
-/

def Order.next : Order → Order
  | abcd => dabc
  | dabc => cdab
  | cdab => bcda
  | bcda => abcd

def Order.view (r : Registers) : Order → Registers
  | abcd => r
  | dabc => ⟨r.d, r.a, r.b, r.c⟩
  | cdab => ⟨r.c, r.d, r.a, r.b⟩
  | bcda => ⟨r.b, r.c, r.d, r.a⟩

/-- The operation on the first register, which then stands in the second place. -/
def Registers.step (f : Word → Word → Word → Word) (term : Word) (s : ℕ) (r : Registers) :
    Registers :=
  ⟨r.d, r.b + (r.a + f r.b r.c r.d + term).rotateLeft s, r.b, r.c⟩

theorem Order.view_perform (order : Order) (f : Word → Word → Word → Word) (term : Word) (s : ℕ)
    (r : Registers) :
    order.next.view (order.perform f term s r) = (order.view r).step f term s := by
  cases order <;> rfl

def functionAt (i : ℕ) : Word → Word → Word → Word :=
  if i < 16 then functionF else if i < 32 then functionG else if i < 48 then functionH
  else functionI

def orderAt (i : ℕ) : Order :=
  match i % 4 with
  | 0 => .abcd
  | 1 => .dabc
  | 2 => .cdab
  | _ => .bcda

def wordIndex (i : ℕ) : ℕ :=
  if i < 16 then i else if i < 32 then (5 * i + 1) % 16 else if i < 48 then (3 * i + 5) % 16
  else (7 * i) % 16

def shiftAt (i : ℕ) : ℕ :=
  ([[7, 12, 17, 22], [5, 9, 14, 20], [4, 11, 16, 23], [6, 10, 15, 21]].getD (i / 16) []).getD
    (i % 4) 0

def operationAt (i : ℕ) : Operation := ⟨orderAt i, wordIndex i, shiftAt i, i + 1⟩

theorem rounds_eq :
    round1 = (List.range' 0 16).map operationAt ∧ round2 = (List.range' 16 16).map operationAt ∧
      round3 = (List.range' 32 16).map operationAt ∧
      round4 = (List.range' 48 16).map operationAt := by
  decide

def performAt (x : ℕ → Word) (r : Registers) (i : ℕ) : Registers :=
  (orderAt i).perform (functionAt i) (x (wordIndex i) + table.getD i 0) (shiftAt i) r

theorem runRound_eq {f : Word → Word → Word → Word} {x : ℕ → Word} {start : ℕ} {r : Registers}
    (hf : ∀ i ∈ List.range' start 16, functionAt i = f) :
    runRound f x ((List.range' start 16).map operationAt) r =
      (List.range' start 16).foldl (performAt x) r := by
  rw [runRound, List.foldl_map]
  apply List.foldl_ext
  intro r i hi
  rw [performAt, hf i hi]
  rfl

theorem functionAt_eq :
    (∀ i ∈ List.range' 0 16, functionAt i = functionF) ∧
      (∀ i ∈ List.range' 16 16, functionAt i = functionG) ∧
      (∀ i ∈ List.range' 32 16, functionAt i = functionH) ∧
      ∀ i ∈ List.range' 48 16, functionAt i = functionI := by
  simp only [List.mem_range'_1, functionAt]
  refine ⟨fun i hi => ?_, fun i hi => ?_, fun i hi => ?_, fun i hi => ?_⟩
  · rw [if_pos (by omega)]
  · rw [if_neg (by omega), if_pos (by omega)]
  · rw [if_neg (by omega), if_neg (by omega), if_pos (by omega)]
  · rw [if_neg (by omega), if_neg (by omega), if_neg (by omega)]

theorem orderAt_succ (i : ℕ) : orderAt (i + 1) = (orderAt i).next := by
  have hcases : i % 4 = 0 ∧ (i + 1) % 4 = 1 ∨ i % 4 = 1 ∧ (i + 1) % 4 = 2 ∨
      i % 4 = 2 ∧ (i + 1) % 4 = 3 ∨ i % 4 = 3 ∧ (i + 1) % 4 = 0 := by
    omega
  rcases hcases with ⟨h, h'⟩ | ⟨h, h'⟩ | ⟨h, h'⟩ | ⟨h, h'⟩ <;> simp only [orderAt, h, h'] <;> rfl

def stepAt (x : ℕ → Word) (r : Registers) (i : ℕ) : Registers :=
  r.step (functionAt i) (x (wordIndex i) + table.getD i 0) (shiftAt i)

theorem foldl_stepAt (x : ℕ → Word) (r : Registers) (n : ℕ) :
    (List.range n).foldl (stepAt x) r =
      (orderAt n).view ((List.range n).foldl (performAt x) r) := by
  induction n with
  | zero => rfl
  | succ n ih =>
    rw [List.range_succ, List.foldl_append, List.foldl_append, ih, orderAt_succ]
    exact (Order.view_perform _ _ _ _ _).symm

/-- A block is 64 turns. -/
theorem processBlock_eq (r : Registers) (x : ℕ → Word) :
    processBlock r x = r.add ((List.range 64).foldl (stepAt x) r) := by
  obtain ⟨h1, h2, h3, h4⟩ := rounds_eq
  obtain ⟨hF, hG, hH, hI⟩ := functionAt_eq
  have hrange : List.range 64 =
      List.range' 0 16 ++ List.range' 16 16 ++ List.range' 32 16 ++ List.range' 48 16 := by
    decide
  have hview : ∀ r' : Registers, Order.view r' (orderAt 64) = r' := fun _ => rfl
  rw [processBlock, h1, h2, h3, h4, runRound_eq hF, runRound_eq hG, runRound_eq hH,
    runRound_eq hI, foldl_stepAt, hview, hrange, List.foldl_append, List.foldl_append,
    List.foldl_append]

/-! ## Sizes -/

@[simp] theorem length_littleEndian (count n : ℕ) : (littleEndian count n).length = count := by
  rw [littleEndian, List.length_map, List.length_range]

/-- The low-order bytes do not depend on the others. -/
theorem ofNat_mod_div {i m : ℕ} (h : i < m) (n : ℕ) :
    UInt8.ofNat (n % 256 ^ m / 256 ^ i) = UInt8.ofNat (n / 256 ^ i) := by
  have hpow : 256 ^ m = 256 ^ i * 256 ^ (m - i) := by
    rw [← Nat.pow_add]
    apply congrArg (256 ^ ·)
    omega
  apply UInt8.toNat_inj.mp
  rw [UInt8.toNat_ofNat', UInt8.toNat_ofNat', hpow, Nat.mod_mul_right_div_self]
  exact Nat.mod_mod_of_dvd _ (Nat.pow_dvd_pow 256 (by omega : 1 ≤ m - i))

theorem littleEndian_add (k l n : ℕ) :
    littleEndian (k + l) n = littleEndian k n ++ littleEndian l (n / 256 ^ k) := by
  simp only [littleEndian, List.range_add, List.map_append, List.map_map]
  apply congrArg
  apply List.map_congr_left
  intro i _
  rw [Function.comp, Nat.pow_add, Nat.div_div_eq_div_mul]

theorem littleEndian_mod (k n : ℕ) : littleEndian k (n % 256 ^ k) = littleEndian k n := by
  apply List.map_congr_left
  intro i hi
  exact ofNat_mod_div (List.mem_range.mp hi) n

theorem length_pad (message : List UInt8) :
    (pad message).length = message.length + 1 + zeros message.length + 8 := by
  rw [pad, List.length_append, List.length_cons, List.length_append, List.length_replicate,
    length_littleEndian]
  omega

/-- A padded message consists of blocks of 64 bytes. -/
theorem length_pad_mod (message : List UInt8) : (pad message).length % 64 = 0 := by
  rw [length_pad, zeros]
  omega

theorem wordNumber_lt (bytes : List UInt8) (offset : ℕ) : wordNumber bytes offset < 2 ^ 32 := by
  have h0 := (bytes.getD offset 0).toNat_lt
  have h1 := (bytes.getD (offset + 1) 0).toNat_lt
  have h2 := (bytes.getD (offset + 2) 0).toNat_lt
  have h3 := (bytes.getD (offset + 3) 0).toNat_lt
  rw [wordNumber]
  omega

/-! ## Hexadecimal digits -/

theorem leftpad_toDigits {n : ℕ} (h : n < 256) : (Nat.toDigits 16 n).leftpad 2 '0' = hexByte n := by
  by_cases hn : n < 16
  · rw [Nat.toDigits_of_lt_base hn, hexByte, Nat.div_eq_of_lt hn, Nat.mod_eq_of_lt hn]
    rfl
  · rw [Nat.toDigits_of_base_le (by decide) (Nat.le_of_not_lt hn),
      Nat.toDigits_of_lt_base (Nat.div_lt_of_lt_mul h)]
    rfl

theorem length_hexDigest (message : List UInt8) : (hexDigest message).length = 32 := by
  simp [hexDigest, Registers.bytes, hexByte, List.range_succ]

end Ilic.Foundation.MessageDigest
