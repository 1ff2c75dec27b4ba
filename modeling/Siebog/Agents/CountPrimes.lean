import Mathlib.NumberTheory.PrimeCounting

/-!
# Counting primes

The work that the example agents do for a message: for each number up to a limit, the divisors are
tried from two on, and a number that no smaller one divides is counted. `Receiver` does so for each
request, and `CNetEnvironment` for the calls and tasks of its agents.

The numbers have 32 bits, so the loop over them has no end when the limit is the greatest of them
(`countPrimes_returns_iff`).
-/

set_option autoImplicit false

namespace Siebog.Agents

section Model

/-- `++i` in 32 bits. -/
def incr (i : ℤ) : ℤ := (i + 1).bmod (2 ^ 32)

/-- The inner loop, with its `j` when it ends; `none` when the fuel ends first. -/
def firstDivisor (i : ℤ) : ℕ → ℤ → Option ℤ
  | 0, _ => none
  | fuel + 1, j =>
    if j ≤ i then if i.tmod j = 0 then some j else firstDivisor i fuel (incr j)
    else some j

/-- The outer loop. -/
def countFrom (limit : ℤ) : ℕ → ℤ → ℤ → Option ℤ
  | 0, _, _ => none
  | fuel + 1, i, primes =>
    if i ≤ limit then
      (firstDivisor i fuel 2).bind fun j =>
        countFrom limit fuel (incr i) (if j = i then incr primes else primes)
    else some primes

/-- `Receiver.process` and `CNetEnvironment.countPrimes` -/
def countPrimes (limit : Int32) (fuel : ℕ) : Option ℤ := countFrom limit.toInt fuel 1 0

end Model

section Loops

theorem incr_natCast {n : ℕ} (h : n < 2 ^ 31 - 1) : incr n = (n + 1 : ℕ) := by
  rw [incr, Int.bmod_eq_of_le (by omega) (by omega)]
  rfl

theorem incr_le (i : ℤ) : incr i ≤ 2 ^ 31 - 1 := by
  have hlt : (i + 1).bmod (2 ^ 32) < ((2 ^ 32 : ℕ) + 1) / 2 := Int.bmod_lt (by decide)
  rw [incr]
  omega

/-- From a number that is not greater, the loop comes to the least divisor. -/
theorem firstDivisor_eq {n : ℕ} (hn : 2 ≤ n) (hbound : n < 2 ^ 31) {m fuel : ℕ}
    (hm : 2 ≤ m) (hle : m ≤ n.minFac) (hfuel : n.minFac < fuel + m) :
    firstDivisor n fuel m = some (n.minFac : ℤ) := by
  have hminFac : n.minFac ≤ n := Nat.minFac_le (by omega)
  induction fuel generalizing m with
  | zero => omega
  | succ fuel ih =>
      rw [firstDivisor, if_pos (by omega)]
      have hdvd : (n : ℤ).tmod m = 0 ↔ m ∣ n := by
        rw [← Int.dvd_iff_tmod_eq_zero, Int.natCast_dvd_natCast]
      by_cases hdiv : m ∣ n
      · rw [if_pos (hdvd.2 hdiv), Nat.le_antisymm hle (Nat.minFac_le_of_dvd hm hdiv)]
      · have hne : m ≠ n.minFac := fun h => hdiv (h ▸ Nat.minFac_dvd n)
        rw [if_neg fun h => hdiv (hdvd.1 h), incr_natCast (by omega)]
        exact ih (by omega) (by omega) (by omega)

/-- The inner loop comes to its number exactly when this is a prime. -/
theorem firstDivisor_prime {n fuel : ℕ} (hn : 1 ≤ n) (hbound : n < 2 ^ 31) (hfuel : n < fuel) :
    ∃ j : ℤ, firstDivisor n fuel 2 = some j ∧ (j = n ↔ n.Prime) := by
  rcases Nat.lt_or_ge n 2 with hone | htwo
  · -- there is nothing to try for one
    obtain ⟨fuel, rfl⟩ := Nat.exists_eq_succ_of_ne_zero (Nat.ne_zero_of_lt hfuel)
    refine ⟨2, if_neg (by omega), iff_of_false (by omega) ?_⟩
    rw [show n = 1 by omega]
    exact Nat.not_prime_one
  · have hminFac : n.minFac ≤ n := Nat.minFac_le (by omega)
    have hprime : 2 ≤ n.minFac := (Nat.minFac_prime (by omega)).two_le
    refine ⟨n.minFac, firstDivisor_eq htwo hbound (Nat.le_refl 2) hprime (by omega), ?_⟩
    rw [Int.natCast_inj, Nat.prime_def_minFac, and_iff_right htwo]

theorem primeCounting_succ (k : ℕ) :
    Nat.primeCounting (k + 1) = Nat.primeCounting k + if (k + 1).Prime then 1 else 0 :=
  Nat.count_succ Nat.Prime k.succ

/-- The outer loop goes on from the primes up to `k` to those up to the limit. -/
theorem countFrom_eq {limit : ℕ} (hlimit : limit < 2 ^ 31 - 1) {k fuel : ℕ} (hk : k ≤ limit)
    (hfuel : limit + (limit - k) < fuel) :
    countFrom limit fuel (k + 1 : ℕ) k.primeCounting = some (limit.primeCounting : ℤ) := by
  induction fuel generalizing k with
  | zero => omega
  | succ fuel ih =>
      rw [countFrom]
      by_cases hlast : k = limit
      · rw [if_neg (by omega), hlast]
      · rw [if_pos (by omega)]
        obtain ⟨j, hj, hprime⟩ : ∃ j : ℤ, firstDivisor (k + 1 : ℕ) fuel 2 = some j ∧
            (j = (k + 1 : ℕ) ↔ (k + 1).Prime) :=
          firstDivisor_prime (by omega) (by omega) (by omega)
        have hcount : k.primeCounting ≤ k + 1 := Nat.count_le Nat.Prime
        rw [hj, Option.bind_some, incr_natCast (n := k + 1) (by omega),
          incr_natCast (n := k.primeCounting) (by omega)]
        have hnext : (if j = (k + 1 : ℕ) then ((k.primeCounting + 1 : ℕ) : ℤ)
            else (k.primeCounting : ℤ)) = ((k + 1).primeCounting : ℕ) := by
          rw [primeCounting_succ]
          by_cases hp : (k + 1).Prime
          · rw [if_pos (hprime.2 hp), if_pos hp]
          · rw [if_neg fun h => hp (hprime.1 h), if_neg hp, Nat.add_zero]
        rw [hnext]
        exact ih (by omega) (by omega)

/-- Every number is at most the greatest one, so the loop never ends. -/
theorem countFrom_max (fuel : ℕ) {i : ℤ} (hi : i ≤ 2 ^ 31 - 1) (primes : ℤ) :
    countFrom (2 ^ 31 - 1) fuel i primes = none := by
  induction fuel generalizing i primes with
  | zero => rfl
  | succ fuel ih =>
      rw [countFrom, if_pos hi, Option.bind_eq_none_iff]
      exact fun _ _ => ih (incr_le i) _

end Loops

section Fuel

theorem firstDivisor_succ {i j r : ℤ} {fuel : ℕ} (h : firstDivisor i fuel j = some r) :
    firstDivisor i (fuel + 1) j = some r := by
  induction fuel generalizing j with
  | zero => cases h
  | succ fuel ih =>
      rw [firstDivisor] at h ⊢
      split_ifs at h ⊢
      · exact h
      · exact ih h
      · exact h

/-- More fuel does not change what a loop returns. -/
theorem countFrom_succ {limit i primes r : ℤ} {fuel : ℕ}
    (h : countFrom limit fuel i primes = some r) : countFrom limit (fuel + 1) i primes = some r := by
  induction fuel generalizing i primes with
  | zero => cases h
  | succ fuel ih =>
      rw [countFrom] at h ⊢
      split_ifs at h ⊢
      · obtain ⟨j, hj, hrest⟩ := Option.bind_eq_some_iff.1 h
        rw [firstDivisor_succ hj]
        exact ih hrest
      · exact h

theorem countFrom_le {limit i primes r : ℤ} {fuel fuel' : ℕ} (hle : fuel ≤ fuel')
    (h : countFrom limit fuel i primes = some r) : countFrom limit fuel' i primes = some r := by
  induction hle with
  | refl => exact h
  | step _ ih => exact countFrom_succ ih

end Fuel

/-- The agents count the primes up to their limit, whatever 32-bit number this is, except the
greatest, for which they never come to an end. -/
theorem countPrimes_returns_iff (limit : Int32) (n : ℤ) :
    (∃ fuel, countPrimes limit fuel = some n) ↔
      limit ≠ Int32.maxValue ∧ n = limit.toInt.toNat.primeCounting := by
  by_cases hmax : limit = Int32.maxValue
  · refine iff_of_false ?_ fun h => h.1 hmax
    rintro ⟨fuel, h⟩
    -- no `int` is above the greatest, so the loop's condition never fails
    have hnone : countPrimes limit fuel = none := by
      rw [countPrimes, hmax]
      exact countFrom_max fuel (by decide) 0
    rw [hnone] at h
    cases h
  · have hlt : limit.toInt < 2 ^ 31 - 1 := by
      have hle := limit.toInt_le
      have hne : limit.toInt ≠ Int32.maxValue.toInt := fun h => hmax (Int32.toInt_inj.1 h)
      have hvalue : Int32.maxValue.toInt = 2 ^ 31 - 1 := by decide
      omega
    have hreturns : ∃ fuel, countPrimes limit fuel =
        some (limit.toInt.toNat.primeCounting : ℤ) := by
      rcases Int.le_total 0 limit.toInt with hpos | hneg
      · refine ⟨2 * limit.toInt.toNat + 1, ?_⟩
        have heq : countFrom limit.toInt.toNat (2 * limit.toInt.toNat + 1) (0 + 1 : ℕ)
            (Nat.primeCounting 0) = some (limit.toInt.toNat.primeCounting : ℤ) :=
          countFrom_eq (by omega) (Nat.zero_le _) (by omega)
        rwa [Int.toNat_of_nonneg hpos] at heq
      · -- below 0 the loop is not entered
        refine ⟨1, ?_⟩
        rw [Int.toNat_of_nonpos hneg]
        exact if_neg (by omega)
    obtain ⟨fuel, hfuel⟩ := hreturns
    constructor
    · rintro ⟨fuel', hfuel'⟩
      refine ⟨hmax, ?_⟩
      -- more fuel gives the same number, so two runs agree
      have hmore := countFrom_le (Nat.le_max_left fuel fuel') hfuel
      have hmore' := countFrom_le (Nat.le_max_right fuel fuel') hfuel'
      exact Option.some.inj (hmore'.symm.trans hmore)
    · rintro ⟨-, rfl⟩
      exact ⟨fuel, hfuel⟩

end Siebog.Agents
