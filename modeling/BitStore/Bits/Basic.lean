/-! Bit strings, most significant bit first: the numbers they denote and the
bytes they make up. `ofNat` and `toNat` are inverse on numbers that fit the
width, and `ofBytes` lays eight bits per byte end to end. -/

namespace BitStore

/-- A run of bits, first bit first. -/
abbrev Bits := List Bool

namespace Bits

/-- The bits as digits `0` and `1`. -/
def render (bits : Bits) : String :=
  String.ofList (bits.map fun b => if b then '1' else '0')

/-! ### Numbers -/

/-- The lowest `width` bits of `n`, most significant first. -/
def ofNat : (width n : Nat) → Bits
  | 0, _ => []
  | w + 1, n => n.testBit w :: ofNat w n

/-- The number a run of bits denotes. -/
def toNat (bits : Bits) : Nat :=
  bits.foldl (fun n b => 2 * n + b.toNat) 0

@[simp] theorem length_ofNat (w n : Nat) : (ofNat w n).length = w := by
  induction w with
  | zero => rfl
  | succ w ih => simp [ofNat, ih]

@[simp] theorem toNat_nil : toNat [] = 0 := rfl

theorem foldl_toNat (bits : Bits) (n : Nat) :
    bits.foldl (fun n b => 2 * n + b.toNat) n = n <<< bits.length + toNat bits := by
  induction bits generalizing n with
  | nil => simp
  | cons b bits ih =>
    rw [toNat, List.foldl_cons, List.foldl_cons, ih, ih (2 * 0 + b.toNat), List.length_cons]
    simp only [Nat.shiftLeft_eq, Nat.pow_succ]
    grind

theorem toNat_cons (b : Bool) (bits : Bits) : toNat (b :: bits) = b.toNat <<< bits.length + toNat bits := by
  rw [toNat, List.foldl_cons, foldl_toNat]
  simp

theorem toNat_append (front back : Bits) :
    toNat (front ++ back) = toNat front <<< back.length + toNat back := by
  rw [toNat, List.foldl_append, foldl_toNat]
  rfl

theorem toNat_lt (bits : Bits) : toNat bits < 1 <<< bits.length := by
  induction bits with
  | nil => simp
  | cons b bits ih =>
    rw [toNat_cons, List.length_cons]
    simp only [Nat.shiftLeft_eq, Nat.pow_succ] at ih ⊢
    cases b <;> simp <;> omega

theorem toNat_ofNat (w n : Nat) : toNat (ofNat w n) = n % 1 <<< w := by
  induction w with
  | zero => simp [ofNat, Nat.mod_one]
  | succ w ih =>
    rw [ofNat, toNat_cons, ih, length_ofNat, Nat.toNat_testBit]
    simp only [Nat.shiftLeft_eq, Nat.pow_succ, Nat.one_mul, Nat.mod_mul]
    grind

theorem ofNat_congr {w m n : Nat} (h : ∀ i < w, m.testBit i = n.testBit i) : ofNat w m = ofNat w n := by
  induction w with
  | zero => rfl
  | succ w ih =>
    rw [ofNat, ofNat, h w (by omega), ih fun i hi => h i (by omega)]

theorem ofNat_toNat (bits : Bits) : ofNat bits.length (toNat bits) = bits := by
  induction bits with
  | nil => rfl
  | cons b bits ih =>
    have hlt := toNat_lt bits
    rw [Nat.one_shiftLeft] at hlt
    rw [List.length_cons, ofNat, toNat_cons, Nat.shiftLeft_eq, Nat.mul_comm]
    congr 1
    · rw [Nat.testBit_two_pow_mul_add _ hlt]
      cases b <;> simp
    · rw [← ih, length_ofNat, toNat_ofNat, Nat.mod_eq_of_lt (toNat_lt bits)]
      refine ofNat_congr fun i hi => ?_
      rw [Nat.testBit_two_pow_mul_add _ hlt, if_pos hi]

/-! ### Bytes -/

/-- The eight bits of a byte. -/
def ofByte (byte : UInt8) : Bits :=
  ofNat 8 byte.toNat

/-- The byte that starts with the given bits, at most eight, the rest being zero. -/
def toByte (bits : Bits) : UInt8 :=
  .ofNat (toNat (bits ++ List.replicate (8 - bits.length) false))

/-- The bits of a run of bytes. -/
def ofBytes (bytes : List UInt8) : Bits :=
  bytes.flatMap ofByte

@[simp] theorem length_ofByte (byte : UInt8) : (ofByte byte).length = 8 :=
  length_ofNat 8 _

@[simp] theorem ofBytes_nil : ofBytes [] = [] := rfl

@[simp] theorem ofBytes_cons (byte : UInt8) (bytes : List UInt8) :
    ofBytes (byte :: bytes) = ofByte byte ++ ofBytes bytes := rfl

@[simp] theorem ofBytes_append (front back : List UInt8) :
    ofBytes (front ++ back) = ofBytes front ++ ofBytes back := by
  simp [ofBytes]

@[simp] theorem length_ofBytes (bytes : List UInt8) : (ofBytes bytes).length = 8 * bytes.length := by
  induction bytes with
  | nil => rfl
  | cons byte bytes ih => simp [ih]; omega

theorem ofBytes_drop (bytes : List UInt8) (n : Nat) : ofBytes (bytes.drop n) = (ofBytes bytes).drop (8 * n) := by
  induction bytes generalizing n with
  | nil => simp
  | cons byte bytes ih =>
    cases n with
    | zero => rfl
    | succ n => simp [ih, List.drop_append, Nat.mul_succ]

/-- A byte filled from eight bits or fewer holds them, then zeros. -/
theorem ofByte_toByte {bits : Bits} (h : bits.length ≤ 8) :
    ofByte (toByte bits) = bits ++ List.replicate (8 - bits.length) false := by
  have hlen : (bits ++ List.replicate (8 - bits.length) false).length = 8 := by simp; omega
  have hlt := toNat_lt (bits ++ List.replicate (8 - bits.length) false)
  rw [hlen, Nat.one_shiftLeft] at hlt
  have hback := ofNat_toNat (bits ++ List.replicate (8 - bits.length) false)
  rw [hlen] at hback
  rw [ofByte, toByte, UInt8.toNat_ofNat', Nat.mod_eq_of_lt hlt, hback]

theorem toByte_ofByte (byte : UInt8) : toByte (ofByte byte) = byte := by
  simp [toByte, ofByte, toNat_ofNat]

end Bits

end BitStore
