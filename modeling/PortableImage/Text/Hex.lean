/-!
# Hexadecimal numbers

Numbers in messages are written in lower-case hexadecimal behind `0x`, without leading zeros
(`hex`), or padded with zeros to a fixed count of digits (`hexPadded`).
-/

set_option autoImplicit false

namespace PortableImage.Text

/-- The lower-case hexadecimal digits of `n`, without leading zeros; zero is `0`. -/
def hexDigits (n : Nat) : List Char := Nat.toDigits 16 n

/-- `n` in hexadecimal behind `0x`. -/
def hex (n : Nat) : String := "0x" ++ String.ofList (hexDigits n)

/-- `n` in hexadecimal behind `0x`, with at least `digits` digits. -/
def hexPadded (digits n : Nat) : String :=
  let ds := hexDigits n
  "0x" ++ String.ofList (List.replicate (digits - ds.length) '0' ++ ds)

example : hex 0 = "0x0" ∧ hex 0x1f00 = "0x1f00" := by decide +kernel

example : hexPadded 8 0x848 = "0x00000848" ∧ hexPadded 2 0x848 = "0x848" := by decide +kernel

end PortableImage.Text
