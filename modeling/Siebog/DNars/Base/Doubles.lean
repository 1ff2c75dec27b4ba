import Siebog.DNars.Base.RoundTrip
import Siebog.Lib.ShortestDecimal

/-!
# Truth values as doubles

The numbers of a truth value are doubles. Printing rounds the decimal that a double is written as,
and reading takes a numeral to the nearest double, so that the number that is read can be further
from the one that was printed than half a hundredth: by half of the spacing of each of the two
(`parse_id_doubles`). It is printed as before all the same. Below `2 ^ 46`, where doubles are
closer to each other than hundredths, the hundredths can be told from the double; from there on
every double is written with two digits behind the point at most, and is read back as it was.
-/

set_option autoImplicit false

namespace Siebog.DNars

open Siebog.Lib FloatFormat

section Model

/-- A finite double without a sign, or infinity. -/
inductive Double where
  | finite (q : ℚ) (nonneg : 0 ≤ q) (isDouble : binary64.round q = q) (lt : q < 2 ^ 1024)
  | infinity

namespace Double

def value : Double → Option ℚ
  | finite q _ _ _ => some q
  | infinity => none

/-- The double nearest to the number of a numeral, which has no sign. -/
def ofRat (q : ℚ) : Double :=
  if h : binary64.round |q| < 2 ^ 1024 then
    finite (binary64.round |q|) (round_nonneg (abs_nonneg q)) (round_round (abs_nonneg q)) h
  else infinity

/-- The conversion `%.2f`, which rounds the decimal that a double is written as. -/
def fixed2 : Double → String
  | finite q _ _ _ => decimal (hundredths (binary64.toDecimal q))
  | infinity => "Infinity"

end Double

/-- A statement with the numbers of the source. -/
structure DoubleStatement where
  subj : Term
  copula : Copula
  pred : Term
  freq : Double
  conf : Double

def DoubleStatement.id (st : DoubleStatement) : String :=
  st.subj.id ++ " " ++ st.copula.text ++ " " ++ st.pred.id ++ " " ++
    ("(" ++ st.freq.fixed2 ++ "," ++ st.conf.fixed2 ++ ")")

/-- The statement a string parses to. The parser makes numbers nowhere but in a numeral and in the
truth value of a question. -/
def StatementParser.parseDoubles (input : String) : Option DoubleStatement := do
  let st ← parse input
  match st.truth with
  | ⟨.val f, .val c⟩ => some ⟨st.subj, st.copula, st.pred, .ofRat f, .ofRat c⟩
  | _ => none

end Model

/-! ## Doubles and hundredths -/

section Hundredths

variable {f : ℚ}

/-- The hundredths that a double is printed in. -/
def printed (f : ℚ) : ℚ := hundredths (binary64.toDecimal f) / 100

theorem printed_nonneg (f : ℚ) : 0 ≤ printed f := by
  rw [printed]
  positivity

theorem hundredths_mono {p q : ℚ} (h : p ≤ q) : hundredths p ≤ hundredths q := by
  have hfloor : ⌊p * 100 + 1 / 2⌋ ≤ ⌊q * 100 + 1 / 2⌋ := Int.floor_le_floor (by linarith)
  exact Int.toNat_le_toNat hfloor

/-- Different hundredths are no closer than one. -/
theorem eq_of_abs_sub_lt {m n : ℕ} (h : |(m : ℚ) / 100 - n / 100| < 1 / 100) : m = n := by
  rw [← sub_div, abs_div, abs_of_pos (by norm_num : (0 : ℚ) < 100),
    div_lt_div_iff_of_pos_right (by norm_num)] at h
  have hint : |(m : ℤ) - n| < 1 := by exact_mod_cast h
  have hzero := Int.abs_lt_one_iff.1 hint
  omega

theorem round_two_pow : binary64.round (2 ^ 46) = 2 ^ 46 := by decide +kernel

theorem spacing_two_pow : binary64.spacing (2 ^ 46) = 1 / 64 := by decide +kernel

/-- Below `2 ^ 46` doubles are closer to each other than hundredths. -/
theorem spacing_lt (h0 : 0 ≤ f) (h : f < 2 ^ 46) : binary64.spacing f ≤ 1 / 128 := by
  have hexp : binary64.lastExp f ≤ -7 := by
    rcases h0.eq_or_lt with rfl | hpos
    · decide +kernel
    · have hlog : Int.log 2 f < 46 :=
        (Int.lt_zpow_iff_log_lt (by norm_num) hpos).1 (by exact_mod_cast h)
      rw [lastExp_of_pos hpos]
      exact max_le (by simp only [binary64]; omega) (by decide)
  have hspacing := zpow_le_zpow_right₀ (a := (2 : ℚ)) (by norm_num) hexp
  norm_num at hspacing
  exact hspacing

/-- What is rounded to a double is within half of its spacing. -/
theorem abs_sub_le_of_round {a : ℚ} (ha : 0 ≤ a) (h : binary64.round a = f) :
    |a - f| ≤ binary64.spacing f / 2 := by
  have hnear := abs_round_sub_le binary64 a
  have hspacing := spacing_le_spacing_round (F := binary64) ha
  rw [h] at hnear hspacing
  rw [abs_sub_comm]
  linarith

theorem abs_printed_sub_le (h0 : 0 ≤ f) (hf : binary64.round f = f) :
    |printed f - f| ≤ 1 / 200 + binary64.spacing f / 2 := by
  have hnonneg := toDecimal_nonneg h0 hf
  have hwritten := abs_sub_le_of_round hnonneg (round_toDecimal h0 hf)
  have hhundredths := abs_hundredths_sub_le hnonneg
  have htriangle := abs_add_le (printed f - binary64.toDecimal f) (binary64.toDecimal f - f)
  rw [sub_add_sub_cancel] at htriangle
  rw [printed] at htriangle ⊢
  linarith

/-- A double that some hundredths are rounded to is written with two digits behind the point. -/
theorem exists_toDecimal_eq {n : ℕ} (h0 : 0 ≤ f) (hf : binary64.round f = f)
    (h : binary64.round (n / 100) = f) (hlog : -2 ≤ Int.log 10 f) :
    ∃ m : ℕ, binary64.toDecimal f = m / 100 := by
  have hten : (10 : ℚ) ^ (2 : ℤ) = 100 := by norm_num
  obtain ⟨m, hm⟩ := toDecimal_mem_grid (j := 2) h0 hf (Int.natCast_nonneg n)
    (by rw [hten]; exact h) (by omega) (by decide)
  rw [hten] at hm
  have hnonneg : (0 : ℚ) ≤ m := by
    have hwritten := toDecimal_nonneg h0 hf
    rw [hm] at hwritten
    linarith
  obtain ⟨n, rfl⟩ := Int.eq_ofNat_of_zero_le (Int.cast_nonneg_iff.1 hnonneg)
  exact ⟨n, hm⟩

/-! ### Large doubles -/

/-- The hundredths nearest to a large double are rounded to it. -/
theorem round_hundredths (h : 2 ^ 46 ≤ f) (hf : binary64.round f = f) :
    binary64.round (hundredths f / 100) = f := by
  have hpos : 0 < f := lt_of_lt_of_le (by norm_num) h
  have hnear := abs_hundredths_sub_le hpos.le
  have hlog : 46 ≤ Int.log 2 f :=
    (Int.zpow_le_iff_le_log (by norm_num) hpos).1 (by exact_mod_cast h)
  have hexp : binary64.lastExp f = Int.log 2 f - 52 := by
    rw [lastExp_of_pos hpos, max_eq_left]
    · simp only [binary64]
      omega
    · simp only [binary64]
      omega
  have hspacing : 1 / 64 ≤ binary64.spacing f := by
    rw [← spacing_two_pow]
    exact spacing_mono (by norm_num) h
  have hbelow : (2 : ℚ) ^ Int.log 2 f ≤ f := by
    exact_mod_cast Int.zpow_log_le_self (by norm_num) hpos
  have habove : f < (2 : ℚ) ^ (Int.log 2 f + 1) := by
    exact_mod_cast Int.lt_zpow_succ_log_self (by norm_num) f
  -- the hundredths are between the same powers of two
  have hlow : (2 : ℚ) ^ Int.log 2 f ≤ hundredths f / 100 := by
    obtain ⟨l, hl⟩ := Int.eq_ofNat_of_zero_le (show 0 ≤ Int.log 2 f by omega)
    have hpower : (2 : ℚ) ^ Int.log 2 f = ((100 * 2 ^ l : ℕ) : ℚ) / 100 := by
      rw [hl, zpow_natCast]
      push_cast
      ring
    have hmono := hundredths_mono hbelow
    rw [hpower, hundredths_div] at hmono
    rw [hpower]
    exact div_le_div_of_nonneg_right (Nat.cast_le.2 hmono) (by norm_num)
  have hhigh : (hundredths f : ℚ) / 100 < 2 ^ (Int.log 2 f + 1) := by
    have hgap := add_spacing_le hf (by omega) habove
    rw [abs_le] at hnear
    linarith
  have hxpos : (0 : ℚ) < hundredths f / 100 := (zpow_pos (by norm_num) _).trans_le hlow
  have hlogs : Int.log 2 ((hundredths f : ℚ) / 100) = Int.log 2 f := by
    have hle := (Int.zpow_le_iff_le_log (b := 2) (by norm_num) hxpos).1 (by exact_mod_cast hlow)
    have hlt := (Int.lt_zpow_iff_log_lt (b := 2) (by norm_num) hxpos).1 (by exact_mod_cast hhigh)
    omega
  apply round_eq_of_abs_sub_lt hf
  · rw [lastExp_of_pos hxpos, lastExp_of_pos hpos, hlogs]
  · linarith

/-- A large double is printed as it is written. -/
theorem printed_of_le (h : 2 ^ 46 ≤ f) (hf : binary64.round f = f) :
    printed f = binary64.toDecimal f := by
  have h0 : 0 ≤ f := le_trans (by norm_num) h
  have hlog : 0 ≤ Int.log 10 f := by
    refine (Int.zpow_le_iff_le_log (by norm_num) (lt_of_lt_of_le (by norm_num) h)).1 ?_
    rw [zpow_zero]
    exact le_trans (by norm_num) h
  obtain ⟨m, hm⟩ := exists_toDecimal_eq h0 hf (round_hundredths h hf) (by omega)
  rw [printed, hm, hundredths_div]

/-! ### Small doubles -/

theorem log_printed (h : printed f ≠ 0) : -2 ≤ Int.log 10 (binary64.round (printed f)) := by
  have hone : (1 : ℚ) / 100 ≤ printed f := by
    have hpos : 1 ≤ hundredths (binary64.toDecimal f) := by
      rw [Nat.one_le_iff_ne_zero]
      rintro hzero
      exact h (by rw [printed, hzero, Nat.cast_zero, zero_div])
    exact div_le_div_of_nonneg_right (by exact_mod_cast hpos) (by norm_num)
  have hleast : (1 : ℚ) / 100 ≤ binary64.round (1 / 100) := by decide +kernel
  have hround := hleast.trans (round_mono (by norm_num) hone)
  have hzpow : (10 : ℚ) ^ (-2 : ℤ) = 1 / 100 := by norm_num
  refine (Int.zpow_le_iff_le_log (by norm_num) (lt_of_lt_of_le (by norm_num) hround)).1 ?_
  push_cast
  rw [hzpow]
  exact hround

/-- The double that printed hundredths are read as is printed in the same. -/
theorem printed_round_of_lt (h0 : 0 ≤ f) (hf : binary64.round f = f) (h : f < 2 ^ 46) :
    binary64.round (printed f) ≤ 2 ^ 46 ∧ printed (binary64.round (printed f)) = printed f := by
  have hread0 : 0 ≤ binary64.round (printed f) := round_nonneg (printed_nonneg f)
  have hread : binary64.round (binary64.round (printed f)) = binary64.round (printed f) :=
    round_round (printed_nonneg f)
  have hwritten : binary64.toDecimal f ≤ 2 ^ 46 := by
    by_contra hgt
    have hmono := round_mono (F := binary64) (by norm_num) (not_le.1 hgt).le
    rw [round_two_pow, round_toDecimal h0 hf] at hmono
    exact absurd h (not_lt.2 hmono)
  have hprinted : printed f ≤ 2 ^ 46 := by
    have hmono := hundredths_mono hwritten
    have hpower : (2 : ℚ) ^ 46 = ((100 * 2 ^ 46 : ℕ) : ℚ) / 100 := by norm_num
    rw [hpower, hundredths_div] at hmono
    rw [printed, hpower]
    exact div_le_div_of_nonneg_right (Nat.cast_le.2 hmono) (by norm_num)
  have hle : binary64.round (printed f) ≤ 2 ^ 46 := by
    have hmono := round_mono (F := binary64) (printed_nonneg f) hprinted
    rwa [round_two_pow] at hmono
  refine ⟨hle, ?_⟩
  have hlog : -2 ≤ Int.log 10 (binary64.round (printed f)) := by
    by_cases hzero : printed f = 0
    · rw [hzero, round_zero, Int.log_zero_right]
      decide
    · exact log_printed hzero
  obtain ⟨m, hm⟩ := exists_toDecimal_eq hread0 hread rfl hlog
  -- both hundredths are rounded to the same double
  have hfirst : binary64.round (m / 100) = binary64.round (printed f) := by
    rw [← hm]
    exact round_toDecimal hread0 hread
  have hm0 : (0 : ℚ) ≤ m / 100 := by positivity
  have hsame : m = hundredths (binary64.toDecimal f) := by
    rcases hle.lt_or_eq with hlt | heq
    · have hspacing := spacing_lt hread0 hlt
      have hnear := abs_sub_le_spacing hm0 (printed_nonneg f) hfirst
      rw [hfirst] at hnear
      exact eq_of_abs_sub_lt (lt_of_le_of_lt (hnear.trans hspacing) (by norm_num))
    · -- the power of two is made of whole hundredths
      have hpower : (2 : ℚ) ^ 46 = ((100 * 2 ^ 46 : ℕ) : ℚ) / 100 := by norm_num
      have hm' := abs_sub_le_of_round hm0 (hfirst.trans heq)
      have hprinted' := abs_sub_le_of_round (printed_nonneg f) heq
      rw [spacing_two_pow, hpower] at hm' hprinted'
      rw [printed] at hprinted'
      rw [eq_of_abs_sub_lt (lt_of_le_of_lt hm' (by norm_num)),
        eq_of_abs_sub_lt (lt_of_le_of_lt hprinted' (by norm_num))]
  rw [printed, hm, hundredths_div, hsame, printed]

end Hundredths

/-! ## The round trip -/

/-- A double that is printed and read again is as near as the spacings allow, and prints alike. -/
theorem Double.exists_ofRat (d : Double) {f : ℚ} (h : d.value = some f) :
    ∃ f', (Double.ofRat (printed f)).value = some f' ∧
      |f' - f| ≤ 1 / 200 + (binary64.spacing f + binary64.spacing f') / 2 ∧
      (Double.ofRat (printed f)).fixed2 = d.fixed2 := by
  cases d with
  | infinity => cases h
  | finite q h0 hq hlt =>
      cases h
      have habs : |printed f| = printed f := abs_of_nonneg (printed_nonneg f)
      have hread : binary64.round (printed f) < 2 ^ 1024 ∧
          printed (binary64.round (printed f)) = printed f := by
        rcases lt_or_ge f (2 ^ 46) with hsmall | hlarge
        · obtain ⟨hle, hprinted⟩ := printed_round_of_lt h0 hq hsmall
          exact ⟨hle.trans_lt (pow_lt_pow_right₀ (by norm_num) (by norm_num)), hprinted⟩
        · -- it is read back as it was
          have hback : binary64.round (printed f) = f := by
            rw [printed_of_le hlarge hq]
            exact round_toDecimal h0 hq
          rw [hback]
          exact ⟨hlt, rfl⟩
      have hfinite : Double.ofRat (printed f) = .finite (binary64.round (printed f))
          (round_nonneg (printed_nonneg f)) (round_round (printed_nonneg f)) hread.1 := by
        simp only [ofRat, habs, dif_pos hread.1]
      have hnear := abs_printed_sub_le h0 hq
      have hrounded := abs_sub_le_of_round (printed_nonneg f) rfl
      refine ⟨binary64.round (printed f), by rw [hfinite, value], ?_, ?_⟩
      · -- the rounding to two decimals, and the one on the way back
        have htriangle := abs_sub_le (binary64.round (printed f)) (printed f) f
        rw [abs_sub_comm] at hrounded
        linarith
      · have hhundredths := congrArg hundredths hread.2
        simp only [printed, hundredths_div] at hhundredths
        rw [hfinite, fixed2, fixed2]
        exact congrArg decimal hhundredths

/-- The statement in exact numbers that prints alike: its numbers are the decimals. -/
theorem DoubleStatement.id_eq {s : DoubleStatement} {f c : ℚ} (hf : s.freq.value = some f)
    (hc : s.conf.value = some c) :
    0 ≤ binary64.toDecimal f ∧ 0 ≤ binary64.toDecimal c ∧
      s.id = (⟨s.subj, s.copula, s.pred,
        ⟨.val (binary64.toDecimal f), .val (binary64.toDecimal c)⟩⟩ : Statement).id := by
  obtain ⟨subj, copula, pred, freq, conf⟩ := s
  cases freq with
  | infinity => cases hf
  | finite f' hf0 hfd hflt =>
      cases conf with
      | infinity => cases hc
      | finite c' hc0 hcd hclt =>
          cases hf
          cases hc
          have hf' := toDecimal_nonneg hf0 hfd
          have hc' := toDecimal_nonneg hc0 hcd
          refine ⟨hf', hc', ?_⟩
          rw [DoubleStatement.id, Statement.id, Truth.toString, fixed2_val hf', fixed2_val hc']
          rfl

/-- Printing and parsing agree up to half a hundredth and half of the spacings of the number that is
printed and of the one that is read. The parsed statement prints as the given one. -/
theorem parse_id_doubles {s : DoubleStatement} (hsubj : s.subj.Printable)
    (hpred : s.pred.Printable) {f c : ℚ} (hf : s.freq.value = some f)
    (hc : s.conf.value = some c) :
    ∃ s' f' c', StatementParser.parseDoubles s.id = some s' ∧
      (s'.subj = s.subj ∧ s'.copula = s.copula ∧ s'.pred = s.pred) ∧
      (s'.freq.value = some f' ∧
        |f' - f| ≤ 1 / 200 + (binary64.spacing f + binary64.spacing f') / 2) ∧
      (s'.conf.value = some c' ∧
        |c' - c| ≤ 1 / 200 + (binary64.spacing c + binary64.spacing c') / 2) ∧
      s'.id = s.id := by
  obtain ⟨hf0, hc0, hid⟩ := DoubleStatement.id_eq hf hc
  obtain ⟨f', hfread, hfnear, hfprint⟩ := s.freq.exists_ofRat hf
  obtain ⟨c', hcread, hcnear, hcprint⟩ := s.conf.exists_ofRat hc
  have hparse : StatementParser.parse s.id = some ⟨s.subj, s.copula, s.pred,
      ⟨.val (printed f), .val (printed c)⟩⟩ := by
    rw [hid]
    exact @parse_hundredths ⟨s.subj, s.copula, s.pred, _⟩ hsubj hpred _ _ rfl hf0 hc0
  refine ⟨⟨s.subj, s.copula, s.pred, .ofRat (printed f), .ofRat (printed c)⟩, f', c', ?_,
    ⟨rfl, rfl, rfl⟩, ⟨hfread, hfnear⟩, ⟨hcread, hcnear⟩, ?_⟩
  · rw [StatementParser.parseDoubles, hparse]
    rfl
  · rw [DoubleStatement.id, DoubleStatement.id, hfprint, hcprint]

/-- `(x cat bird) -> eat (0.29,0.90)`, with the double nearest to 0.285 as its frequency. -/
def halfWay : DoubleStatement :=
  ⟨.compound .product [atom "cat", atom "bird"], .inherit, .atomic (atom "eat"),
    .ofRat (285 / 1000), .ofRat (9 / 10)⟩

theorem freq_halfWay : halfWay.freq.value = some (5134103575202365 / 2 ^ 54) := by
  decide +kernel

theorem conf_halfWay : halfWay.conf.value = some (8106479329266893 / 2 ^ 53) := by
  decide +kernel

theorem parse_id_doubles_halfWay :
    ∃ s' f' c', StatementParser.parseDoubles halfWay.id = some s' ∧
      (s'.subj = halfWay.subj ∧ s'.copula = .inherit ∧ s'.pred = halfWay.pred) ∧
      (s'.freq.value = some f' ∧ |f' - 5134103575202365 / 2 ^ 54| ≤
        1 / 200 + (binary64.spacing (5134103575202365 / 2 ^ 54) + binary64.spacing f') / 2) ∧
      (s'.conf.value = some c' ∧ |c' - 8106479329266893 / 2 ^ 53| ≤
        1 / 200 + (binary64.spacing (8106479329266893 / 2 ^ 53) + binary64.spacing c') / 2) ∧
      s'.id = halfWay.id :=
  @parse_id_doubles halfWay (Nat.le_refl 2) trivial _ _ freq_halfWay conf_halfWay

/-- The frequency is printed as 0.29, and the double nearest to that is further away than half a
hundredth. -/
theorem read_further_away :
    ¬ ∀ s : DoubleStatement, s.subj.Printable → s.pred.Printable → ∀ f c,
        s.freq.value = some f → s.conf.value = some c →
          ∃ s' f' c', StatementParser.parseDoubles s.id = some s' ∧
            (s'.subj = s.subj ∧ s'.copula = s.copula ∧ s'.pred = s.pred) ∧
            (s'.freq.value = some f' ∧ |f' - f| ≤ 1 / 200) ∧
            (s'.conf.value = some c' ∧ |c' - c| ≤ 1 / 200) ∧ s'.id = s.id := by
  intro hall
  obtain ⟨s', f', c', hparse, -, ⟨hf', hnear⟩, -⟩ :=
    hall halfWay (Nat.le_refl 2) trivial _ _ freq_halfWay conf_halfWay
  have hread : (StatementParser.parseDoubles halfWay.id).map (fun s => s.freq.value) =
      some (some (5224175567749775 / 2 ^ 54)) := by
    decide +kernel
  rw [hparse, Option.map_some, hf', Option.some.injEq, Option.some.injEq] at hread
  rw [hread] at hnear
  exact absurd hnear (by norm_num [abs_le])

end Siebog.DNars
