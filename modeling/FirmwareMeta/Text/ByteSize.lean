/-!
Sizes in bytes and in the multiples of 1024 bytes. A size that is no whole number of its unit
has two decimal places; a half goes to the even one.
-/
namespace FirmwareMeta.Text

/-- The nearest natural to a quotient. A half goes to the even neighbour. -/
def roundedQuotient (n d : Nat) : Nat :=
  let q := n / d
  let twice := 2 * (n % d)
  if twice < d ∨ (twice = d ∧ q % 2 = 0) then q else q + 1

/-- The text of `bytes / unit` in the first of some units that leaves less than 1024 of it. -/
def sizeIn (bytes unit : Nat) : List String → String
  | [] => ""
  | name :: larger =>
    if 1024 * unit ≤ bytes ∧ larger ≠ [] then sizeIn bytes (1024 * unit) larger
    else
      let number :=
        if bytes % unit = 0 then toString (bytes / unit)
        else
          let hundredths := roundedQuotient (100 * bytes) unit
          toString (hundredths / 100) ++ "." ++
            String.ofList [Nat.digitChar (hundredths % 100 / 10), Nat.digitChar (hundredths % 10)]
      number ++ " " ++ name

def byteSize (bytes : Nat) : String :=
  sizeIn bytes 1 ["B", "KiB", "MiB", "GiB", "TiB", "PiB", "EiB"]

end FirmwareMeta.Text
