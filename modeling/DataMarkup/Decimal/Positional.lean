import DataMarkup.Decimal.Shortest

/-! Decimal text in positional notation: no exponent, no zeros beyond the last digit that counts. -/

namespace DataMarkup

namespace Decimal

def text (d : Decimal) : String :=
  let digits := (Nat.repr d.digits).toList
  let places := (-d.exponent).toNat
  if places = 0 then String.ofList (digits ++ List.replicate d.exponent.toNat '0')
  else
    let padded := List.replicate (places + 1 - digits.length) '0' ++ digits
    let whole := padded.length - places
    String.ofList (padded.take whole ++ '.' :: padded.drop whole)

end Decimal

namespace Binary64

def signed (negative : Bool) (text : String) : String := if negative then "-" ++ text else text

def Value.text : Value → String
  | notANumber => "NaN"
  | infinite negative => signed negative "inf"
  | zero negative => signed negative "0"
  | finite negative magnitude => signed negative magnitude.shortest.text

def text (x : Binary64) : String := x.value.text

end Binary64
end DataMarkup
