import Siebog.DNars.Base.Statement

/-!
# Printed forms

A statement prints as subject, copula, predicate and truth value, separated by single spaces; a
truth value prints as `(%.2f,%.2f)` of its two numbers. The printed form of a statement is the
payload of graph events, a line of an import file and a part of error messages.
-/

set_option autoImplicit false

namespace Siebog.DNars

open Siebog.Lib

/-- `q` in hundredths, rounded half up. -/
def hundredths (q : ℚ) : ℕ := (q * 100 + 1 / 2).floor.toNat

/-- `n` hundredths in decimal notation. -/
def decimal (n : ℕ) : String :=
  toString (n / 100) ++ "." ++ String.ofList [(n / 10 % 10).digitChar, (n % 10).digitChar]

/-- The conversion `%.2f`. -/
def fixed2 : Num ℚ → String
  | .nan => "NaN"
  | .val q => (if q < 0 then "-" else "") ++ decimal (hundredths |q|)

def Truth.toString (t : Truth) : String := "(" ++ fixed2 t.freq ++ "," ++ fixed2 t.conf ++ ")"

/-- `s"$subj $copula $pred $truth"`, which `toString` returns. -/
def Statement.id (st : Statement) : String :=
  st.subj.id ++ " " ++ st.copula.text ++ " " ++ st.pred.id ++ " " ++ st.truth.toString

example : (⟨.compound .product [atom "cat", atom "bird"], .inherit, .atomic (atom "eat"),
    ⟨.val 1, .val (9 / 10)⟩⟩ : Statement).id = "(x cat bird) -> eat (1.00,0.90)" := by
  decide +kernel

end Siebog.DNars
