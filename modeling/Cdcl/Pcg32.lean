/-!
# Pcg32 — a small generator of pseudorandom words

The state is a word of 64 bits which each step multiplies and adds to.  A step answers 32 bits of the state it leaves,
folded together and rotated by its top five bits.  All wider draws, and the draws of truth values and of numbers below a
bound, are made of such words, the low half first.  A number drawn below a bound is below it (`lt_of_below?`).  A seed
is a word too, and may be given by its bytes; no two seeds of eight bytes are the same word (`bytes_numberOfBytes`).
-/
namespace Cdcl

structure Pcg32 where
  state : UInt64
deriving DecidableEq, Repr

namespace Pcg32

def multiplier : UInt64 := 6364136223846793005

def increment : UInt64 := 3215534235932367345

def output (s : UInt64) : UInt32 :=
  let word := (((s >>> 18) ^^^ s) >>> 27).toUInt32
  let turn := (s >>> 59).toUInt32
  (word >>> turn) ||| (word <<< ((32 - turn) % 32))

def advance (s : UInt64) : UInt64 := s * multiplier + increment

def next32 (r : Pcg32) : UInt32 × Pcg32 := (output r.state, ⟨advance r.state⟩)

def next64 (r : Pcg32) : UInt64 × Pcg32 :=
  let (low, r) := r.next32
  let (high, r) := r.next32
  (low.toUInt64 ||| (high.toUInt64 <<< 32), r)

/-! ## Seeds -/

/-- The generator of a seed: the seed is added after a first step, and a second step follows. -/
def ofSeed (seed : UInt64) : Pcg32 := ⟨advance (advance 0 + seed)⟩

def default : Pcg32 := ofSeed 0

instance : Inhabited Pcg32 := ⟨default⟩

/-- The increment of the sequence that spreads a number over a seed. -/
def spreadIncrement : UInt64 := 11634580027462260723

def spread (s : UInt64) : UInt64 := s * multiplier + spreadIncrement

/-- The generator of a number, whose bits are first spread over a seed. -/
def ofNumber (n : UInt64) : Pcg32 :=
  let low := spread n
  let high := spread low
  ofSeed ((output low).toUInt64 ||| ((output high).toUInt64 <<< 32))

/-! ## Bytes -/

/-- The `n` lowest bytes of a word, the lowest first. -/
def bytes (w : UInt64) : Nat → List UInt8
  | 0 => []
  | n + 1 => w.toUInt8 :: bytes (w >>> 8) n

/-- The number that some bytes write, the lowest first. -/
def numberOfBytes : List UInt8 → Nat
  | [] => 0
  | b :: rest => b.toNat + 256 * numberOfBytes rest

/-- The generator of a seed given by its bytes, the lowest first. -/
def ofBytes (seed : List UInt8) : Pcg32 := ofSeed (.ofNat (numberOfBytes seed))

/-- So many bytes: eight at a time, and the rest from as short a word as holds them. -/
def fill (r : Pcg32) (n : Nat) : List UInt8 × Pcg32 :=
  if n ≥ 8 then
    let (w, r) := r.next64
    let (rest, r) := fill r (n - 8)
    (bytes w 8 ++ rest, r)
  else if n > 4 then
    let (w, r) := r.next64
    (bytes w n, r)
  else if n > 0 then
    let (w, r) := r.next32
    (bytes w.toUInt64 n, r)
  else ([], r)
termination_by n

theorem numberOfBytes_lt (bs : List UInt8) : numberOfBytes bs < 1 <<< (8 * bs.length) := by
  induction bs with
  | nil => exact Nat.one_pos
  | cons b rest ih =>
    have hb := b.toNat_lt
    rw [Nat.one_shiftLeft] at ih ⊢
    rw [List.length_cons, Nat.mul_succ, Nat.pow_add, numberOfBytes]
    omega

/-- **The bytes of the word that bytes write are those bytes.** -/
theorem bytes_numberOfBytes : ∀ {bs : List UInt8}, bs.length ≤ 8 →
    bytes (.ofNat (numberOfBytes bs)) bs.length = bs
  | [], _ => rfl
  | b :: rest, h => by
    have hb := b.toNat_lt
    have hlt : numberOfBytes (b :: rest) < 18446744073709551616 := by
      refine Nat.lt_of_lt_of_le (numberOfBytes_lt _) ?_
      rw [Nat.one_shiftLeft]
      exact Nat.pow_le_pow_right Nat.two_pos (Nat.mul_le_mul_left 8 h)
    have hrest : rest.length ≤ 8 := Nat.le_of_succ_le h
    have hlow : (UInt64.ofNat (numberOfBytes (b :: rest))).toUInt8 = b := by
      apply UInt8.toNat_inj.1
      rw [UInt64.toNat_toUInt8, UInt64.toNat_ofNat_of_lt' hlt, numberOfBytes]
      omega
    have hshift : UInt64.ofNat (numberOfBytes (b :: rest)) >>> 8 = .ofNat (numberOfBytes rest) := by
      apply UInt64.toNat_inj.1
      rw [numberOfBytes] at hlt ⊢
      rw [UInt64.toNat_shiftRight, UInt64.toNat_ofNat_of_lt' hlt, UInt64.toNat_ofNat_of_lt' (Nat.lt_of_le_of_lt (by omega) hlt),
        Nat.shiftRight_eq_div_pow]
      change _ / 256 = _
      omega
    rw [List.length_cons, bytes, hlow, hshift, bytes_numberOfBytes hrest]

@[simp] theorem length_bytes : ∀ (w : UInt64) (n : Nat), (bytes w n).length = n
  | _, 0 => rfl
  | w, n + 1 => by rw [bytes, List.length_cons, length_bytes]

/-- **As many bytes are drawn as were asked for.** -/
theorem length_fill (r : Pcg32) (n : Nat) : (r.fill n).1.length = n := by
  fun_induction fill r n with
  | case1 r n h w r' _ rest r'' hrest ih =>
    rw [hrest] at ih
    rw [List.length_append, length_bytes, ih]
    omega
  | case2 => simp
  | case3 => simp
  | case4 r n h h' h'' => simp; omega

/-! ## Truth values and numbers -/

/-- `2 ^ 64` -/
def wordCount : Float := 18446744073709551616.0

/-- True with the given probability.  The probability one draws nothing; what is no probability has no answer. -/
def chance? (r : Pcg32) (p : Float) : Option (Bool × Pcg32) :=
  if p == 1.0 then some (true, r)
  else if 0.0 ≤ p ∧ p < 1.0 then
    let (w, r) := r.next64
    some (decide (w < (p * wordCount).toUInt64), r)
  else none

def word (r : Pcg32) (wide : Bool) : Nat × Pcg32 :=
  if wide then
    let (w, r) := r.next64
    (w.toNat, r)
  else
    let (w, r) := r.next32
    (w.toNat, r)

/-- A number below a bound.  The word drawn is scaled to the bound; if its fraction is within a bound's width of the
next number, a second word decides whether to go on to it. -/
def below? (r : Pcg32) (bound : Nat) : Option (Nat × Pcg32) :=
  if bound = 0 then none
  else
    let wide := decide (4294967295 < bound)
    let size := if wide then 18446744073709551616 else 4294967296
    let (x, r) := r.word wide
    let high := x * bound / size
    let low := x * bound % size
    if size - bound < low then
      let (y, r) := r.word wide
      some (if size ≤ low + y * bound / size then (high + 1, r) else (high, r))
    else some (high, r)

theorem word_lt (r : Pcg32) (wide : Bool) :
    (r.word wide).1 < if wide then 18446744073709551616 else 4294967296 := by
  unfold word
  split
  · exact UInt64.toNat_lt _
  · exact UInt32.toNat_lt _

/-- A word scaled to a bound. -/
theorem scaled_lt {x bound size : Nat} (hx : x < size) (hb : 0 < bound) : x * bound / size < bound := by
  rw [Nat.div_lt_iff_lt_mul (Nat.zero_lt_of_lt hx), Nat.mul_comm]
  exact Nat.mul_lt_mul_of_pos_left hx hb

/-- A fraction that near to the next number leaves room for it. -/
theorem scaled_succ_lt {x bound size : Nat} (hx : x < size) (hlow : size - bound < x * bound % size) :
    x * bound / size + 1 < bound := by
  have hsum := Nat.div_add_mod (x * bound) size
  have hmul : (x + 1) * bound ≤ size * bound := Nat.mul_le_mul_right bound hx
  rw [Nat.succ_mul] at hmul
  refine Nat.lt_of_not_le fun h => ?_
  have hge : size * bound ≤ size * (x * bound / size + 1) := Nat.mul_le_mul_left size h
  rw [Nat.mul_succ] at hge
  omega

/-- **A number drawn below a bound is below it.** -/
theorem lt_of_below? {r r' : Pcg32} {bound n : Nat} (h : r.below? bound = some (n, r')) : n < bound := by
  unfold below? at h
  split at h
  · cases h
  · rename_i hb
    have hx := r.word_lt (decide (4294967295 < bound))
    dsimp only at h
    generalize decide (4294967295 < bound) = wide at h hx
    generalize (if wide = true then 18446744073709551616 else 4294967296) = size at h hx
    split at h
    · rename_i hlow
      split at h <;> cases h
      · exact scaled_succ_lt hx hlow
      · exact scaled_lt hx (Nat.pos_of_ne_zero hb)
    · cases h
      exact scaled_lt hx (Nat.pos_of_ne_zero hb)

end Pcg32

end Cdcl
