/-!
# Luby — the sequence that schedules restarts

1, 1, 2, 1, 1, 2, 4, 1, 1, 2, 1, 1, 2, 4, 8, …: the powers of a base, with exponents 0, 0, 1, 0, 0, 1, 2, ….  An element
is computed from its index alone.  First the least initial piece of length `2 ^ k - 1` that holds the index is found,
and then the piece is halved until the index is its last, where the exponent of a piece stands.
-/
namespace Cdcl

namespace Luby

/-- The length and the exponent of the least piece, from the given one on, that holds `count` elements. -/
def enclosing (count : Nat) : Nat → Nat → Int → Nat × Int
  | 0, size, exponent => (size, exponent)
  | fuel + 1, size, exponent =>
    if size < count then enclosing count fuel (2 * size + 1) (exponent + 1) else (size, exponent)

/-- The exponent at an index of a piece.  `none` is for a piece that cannot be halved; none is met. -/
def within : Nat → Nat → Int → Nat → Option Int
  | 0, _, _, _ => none
  | fuel + 1, size, exponent, index =>
    if size - 1 = index then some exponent
    else
      let half := (size - 1) / 2
      if half = 0 then none else within fuel half (exponent - 1) (index % half)

/-- The exponent of the element with the given index. -/
def exponent? (index : Nat) : Option Int :=
  let (size, exponent) := enclosing (index + 1) (index + 1) 1 0
  within size size exponent index

/-- A power by repeated squaring: the accumulated product, the current square, the exponent left. -/
def powerFrom : Nat → Float → Float → Nat → Float
  | 0, product, _, _ => product
  | fuel + 1, product, square, n =>
    let product := if n % 2 = 1 then product * square else product
    if n / 2 = 0 then product else powerFrom fuel product (square * square) (n / 2)

def power (base : Float) (n : Nat) : Float := powerFrom (n + 1) 1.0 base n

/-- The element with the given index, as a power of the base. -/
def element? (base : Float) (index : Nat) : Option Float :=
  match exponent? index with
  | some (Int.ofNat n) => some (power base n)
  | _ => none

end Luby

/-- The greatest index of the sequence. -/
def lubyIndexMax : Nat := 4294967295

/-- A place in the sequence. -/
structure Luby where
  base : Float
  index : Nat := 0

namespace Luby

instance : Inhabited Luby := ⟨{ base := 2.0 }⟩

/-- The element at the place, and the next place.  The last index has no next place, and gives no element. -/
def next (l : Luby) : Option Float × Luby :=
  if l.index < lubyIndexMax then (element? l.base l.index, { l with index := l.index + 1 }) else (none, l)

def take (l : Luby) : Nat → List Float
  | 0 => []
  | n + 1 =>
    match l.next with
    | (some x, l) => x :: take l n
    | (none, _) => []

end Luby

end Cdcl
