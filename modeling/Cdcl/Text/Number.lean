/-!
# Text.Number — reading and writing numbers

Whole numbers are read from decimal digits, with a sign if the type has one to give, and only within the range of a
word.  Floats are read from a decimal notation with an exponent, to the nearest double.  A float is written with two
places, rounded to the nearest, and to the even one of two that are as near.
-/
namespace Cdcl
namespace Text

def isDigit (c : Char) : Bool := '0' ≤ c && c ≤ '9'

def digitsValue (cs : List Char) : Nat := cs.foldl (fun n c => 10 * n + (c.toNat - 48)) 0

/-- The number of one digit or more. -/
def natural? (cs : List Char) : Option Nat :=
  if cs.isEmpty || !cs.all isDigit then none else some (digitsValue cs)

/-- A number of at most a greatest one; a plus sign may stand before it. -/
def unsigned? (greatest : Nat) (cs : List Char) : Option Nat :=
  let digits := match cs with
    | '+' :: rest => rest
    | _ => cs
  (natural? digits).filter (decide <| · ≤ greatest)

/-- A number that a signed word of 64 bits holds; a sign may stand before it. -/
def signed64? (cs : List Char) : Option Int :=
  match cs with
  | '-' :: rest => ((natural? rest).filter (decide <| · ≤ 9223372036854775808)).map fun n => -(n : Int)
  | _ => (unsigned? 9223372036854775807 cs).map Int.ofNat

theorem le_of_unsigned? {greatest n : Nat} {cs : List Char} (h : unsigned? greatest cs = some n) : n ≤ greatest := by
  simpa using (Option.filter_eq_some_iff.1 h).2

theorem isDigit_of_natural? {cs : List Char} {n : Nat} (h : natural? cs = some n) :
    cs ≠ [] ∧ (∀ c ∈ cs, isDigit c = true) ∧ n = digitsValue cs := by
  unfold natural? at h
  split at h
  · cases h
  · rename_i hcs
    cases h
    simp only [Bool.or_eq_true, List.isEmpty_iff, Bool.not_eq_true', not_or, Bool.not_eq_false] at hcs
    exact ⟨hcs.1, List.all_eq_true.1 hcs.2, rfl⟩

/-! ## Floats -/

/-- A decimal with so many digits before or after its point is beyond the doubles. -/
def exponentBound : Int := 400

/-- The double nearest to `digits * 10 ^ exponent`. -/
def nearest (digits : Nat) (exponent : Int) : Float :=
  let magnitude : Int := (Nat.toDigits 10 digits).length + exponent
  if digits = 0 then 0.0
  else if exponentBound < magnitude then 1.0 / 0.0
  else if magnitude < -exponentBound then 0.0
  else if exponent < 0 then Float.ofScientific digits true exponent.natAbs
  else Float.ofScientific digits false exponent.natAbs

/-- The exponent after its mark: digits, with a sign or without. -/
def exponent? : List Char → Option Int
  | '-' :: rest => (natural? rest).map fun n => -(n : Int)
  | '+' :: rest => (natural? rest).map Int.ofNat
  | rest => (natural? rest).map Int.ofNat

/-- A float without a sign. -/
def magnitude? (cs : List Char) : Option Float :=
  let lower := cs.map Char.toLower
  if lower = ['i', 'n', 'f'] || lower = ['i', 'n', 'f', 'i', 'n', 'i', 't', 'y'] then some (1.0 / 0.0)
  else if lower = ['n', 'a', 'n'] then some (0.0 / 0.0)
  else
    let whole := lower.takeWhile isDigit
    let rest := lower.dropWhile isDigit
    let (fraction, rest) := match rest with
      | '.' :: rest => (rest.takeWhile isDigit, rest.dropWhile isDigit)
      | _ => ([], rest)
    if whole.isEmpty && fraction.isEmpty then none
    else
      let exponent := match rest with
        | [] => some 0
        | 'e' :: rest => exponent? rest
        | _ => none
      exponent.map fun e => nearest (digitsValue (whole ++ fraction)) (e - fraction.length)

/-- A float in decimal notation, or one of the names of infinity and of what is no number. -/
def float? : List Char → Option Float
  | '-' :: rest => (magnitude? rest).map (-·)
  | '+' :: rest => magnitude? rest
  | cs => magnitude? cs

/-- A quotient rounded to the nearest whole number, and to the even one of two. -/
def roundDiv (num den : Nat) : Nat :=
  let q := num / den
  let r := num % den
  if 2 * r < den then q else if den < 2 * r then q + 1 else q + q % 2

/-- **A rounded quotient is off by half a unit at most.** -/
theorem roundDiv_near (num : Nat) {den : Nat} (h : 0 < den) :
    2 * (roundDiv num den * den) ≤ 2 * num + den ∧ 2 * num ≤ 2 * (roundDiv num den * den) + den := by
  have hsum := Nat.div_add_mod num den
  have hlt := Nat.mod_lt num h
  rw [Nat.mul_comm] at hsum
  unfold roundDiv
  dsimp only
  split
  · omega
  · split
    · rw [Nat.add_mul, Nat.one_mul]
      omega
    · rcases Nat.mod_two_eq_zero_or_one (num / den) with he | he <;> rw [he, Nat.add_mul] <;> omega

/-- **Of two quotients as near, the even one is taken.** -/
theorem roundDiv_even_of_tie {num den : Nat} (h : 2 * (num % den) = den) : roundDiv num den % 2 = 0 := by
  unfold roundDiv
  dsimp only
  rw [if_neg (by omega), if_neg (by omega)]
  omega

/-- Hundredths of a finite float that is not negative, rounded. -/
def hundredths (x : Float) : Nat :=
  let bits := x.toBits.toNat
  let exponent := bits / 4503599627370496 % 2048
  let fraction := bits % 4503599627370496
  let mantissa := if exponent = 0 then fraction else fraction + 4503599627370496
  let shift := max exponent 1
  if 1075 ≤ shift then (mantissa * 100) <<< (shift - 1075) else roundDiv (mantissa * 100) (1 <<< (1075 - shift))

/-- A finite float that is not negative, with two places. -/
def twoPlaces (x : Float) : String :=
  let n := hundredths x
  let places := toString (n % 100)
  toString (n / 100) ++ "." ++ (if places.length = 1 then "0" ++ places else places)

end Text
end Cdcl
