/-! Lowercase hexadecimal text. -/
namespace Lockstep.Hex

/-- The hexadecimal digits of `n`, the fewest that denote it. -/
def digits (n : Nat) : List Char := Nat.toDigits 16 n

/-- The digits of `n` with zeros in front, up to `width` characters. -/
def padded (width n : Nat) : List Char :=
  List.replicate (width - (digits n).length) '0' ++ digits n

/-- The bare text of `n`. -/
def text (n : Nat) : String := String.ofList (digits n)

/-- The text of `n` behind `0x`, with at least `width` digits. -/
def wideText (width n : Nat) : String := "0x" ++ String.ofList (padded width n)

end Lockstep.Hex
