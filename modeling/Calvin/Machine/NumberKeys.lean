import Mathlib.Data.List.TakeWhile
import Calvin.Machine.ClusterConfig

/-!
# Keys that are numbers

The applications number their records and use the decimal digits of the number
as the key (`IntToString` of `common/utils.cc`). `stringToInt` reads the number
back, so the partition and the first master of such a key are computed from it.
-/

namespace Calvin

/-- The decimal digits of a number. -/
def decimal (n : Nat) : Key := (Nat.toDigits 10 n).map fun c => UInt8.ofNat c.toNat

/-- `IntToString`. -/
def intToString (n : Int) : Key :=
  if n < 0 then 45 :: decimal n.natAbs else decimal n.natAbs

/-- The conversion to `int` of an unsigned number. -/
def toInt (n : Nat) : Int := (n : Int).bmod UInt32.size

/-- `IntToString` of a `uint64`. -/
def numberKey (n : Nat) : Key := intToString (toInt n)

/-- The first number that is no `int`. -/
def intLimit : Nat := 2147483648

/-! ## Reading the number back -/

theorem digit_bounds {n : Nat} {c : Char} (hc : c ∈ Nat.toDigits 10 n) :
    48 ≤ c.toNat ∧ c.toNat ≤ 57 := by
  have hdigit : c.isDigit = true := Nat.isDigit_of_mem_toDigits (by decide) (by decide) hc
  simp only [Char.isDigit, Bool.and_eq_true, decide_eq_true_eq, ge_iff_le] at hdigit
  exact hdigit

theorem toNat_digit {n : Nat} {c : Char} (hc : c ∈ Nat.toDigits 10 n) :
    (UInt8.ofNat c.toNat).toNat = c.toNat := by
  have hbounds := digit_bounds hc
  rw [UInt8.toNat_ofNat']
  omega

theorem decimal_digits {n : Nat} {b : UInt8} (hb : b ∈ decimal n) : 48 ≤ b ∧ b ≤ 57 := by
  obtain ⟨c, hc, rfl⟩ := List.mem_map.mp hb
  have hbounds := digit_bounds hc
  have hnat := toNat_digit hc
  rw [UInt8.le_iff_toNat_le, UInt8.le_iff_toNat_le, hnat]
  exact hbounds

theorem decimal_ne_nil (n : Nat) : decimal n ≠ [] := by
  intro h
  exact Nat.toDigits_ne_nil (List.map_eq_nil_iff.mp h)

/-- A number is read back from its digits. -/
theorem leadingNumber_decimal (n : Nat) : leadingNumber (decimal n) = n := by
  have hall : (decimal n).takeWhile (fun c => decide (48 ≤ c ∧ c ≤ 57)) = decimal n := by
    rw [List.takeWhile_eq_self_iff]
    intro b hb
    exact decide_eq_true (decimal_digits hb)
  unfold leadingNumber
  rw [hall, decimal, List.foldl_map]
  have hfold : ∀ (cs : List Char) (init : Nat), (∀ c ∈ cs, c ∈ Nat.toDigits 10 n) →
      cs.foldl (fun m c => 10 * m + ((UInt8.ofNat c.toNat).toNat - 48)) init =
        Nat.ofDigitChars 10 cs init := by
    intro cs
    induction cs with
    | nil => intro init _; rfl
    | cons c cs ih =>
        intro init hcs
        rw [List.foldl_cons, Nat.ofDigitChars_cons, ih _ fun d hd => hcs d (by simp [hd]),
          toNat_digit (hcs c (by simp))]
        rfl
  rw [hfold _ _ fun _ hc => hc, Nat.ofDigitChars_ten_toDigits]

/-- No digit is a space or a sign. -/
theorem stringToInt_decimal (n : Nat) : stringToInt (decimal n) = n := by
  have hnumber := leadingNumber_decimal n
  cases hd : decimal n with
  | nil => exact absurd hd (decimal_ne_nil n)
  | cons b bs =>
      have hb : 48 ≤ b ∧ b ≤ 57 := decimal_digits (n := n) (by rw [hd]; exact List.mem_cons_self)
      have hspace : isSpace b = false := by
        simp only [isSpace, UInt8.le_iff_toNat_le, ← UInt8.toNat_inj] at hb ⊢
        simp at hb ⊢
        omega
      have h45 : b ≠ 45 := by
        rintro rfl
        exact absurd hb.1 (by decide)
      have h43 : b ≠ 43 := by
        rintro rfl
        exact absurd hb.1 (by decide)
      rw [hd] at hnumber
      unfold stringToInt
      rw [List.dropWhile_cons, hspace]
      simp only [Bool.false_eq_true, if_false]
      split
      · next h => exact absurd (List.cons.inj h).1 h45
      · next h => exact absurd (List.cons.inj h).1 h43
      · rw [hnumber]

theorem stringToInt_intToString (n : Int) : stringToInt (intToString n) = n := by
  unfold intToString
  split
  · next hneg =>
      have hminus : stringToInt (45 :: decimal n.natAbs) =
          -(leadingNumber (decimal n.natAbs) : Int) :=
        rfl
      rw [hminus, leadingNumber_decimal]
      omega
  · rw [stringToInt_decimal]
    omega

theorem toInt_of_lt {n : Nat} (h : n < intLimit) : toInt n = n := by
  unfold intLimit at h
  exact Int.bmod_eq_of_le (by simp only [UInt32.size]; omega) (by simp only [UInt32.size]; omega)

theorem stringToInt_numberKey {n : Nat} (h : n < intLimit) : stringToInt (numberKey n) = n := by
  rw [numberKey, stringToInt_intToString, toInt_of_lt h]

/-- Different numbers have different keys. -/
theorem numberKey_injective {m n : Nat} (hm : m < intLimit) (hn : n < intLimit)
    (h : numberKey m = numberKey n) : m = n := by
  have hread := congrArg stringToInt h
  rw [stringToInt_numberKey hm, stringToInt_numberKey hn] at hread
  exact Int.ofNat_inj.mp hread

-- from here on its lemmas are used: unfolding it on an unknown number leads nowhere
attribute [irreducible] numberKey

namespace ClusterConfig

variable {cfg : ClusterConfig} {n : Nat}

@[simp] theorem lookupPartition_relative (cfg : ClusterConfig) (node : Nat) (key : Key) :
    { cfg with relativeNodeId := node }.lookupPartition key = cfg.lookupPartition key := rfl

@[simp] theorem lookupMaster_relative (cfg : ClusterConfig) (node : Nat) (key : Key) :
    { cfg with relativeNodeId := node }.lookupMaster key = cfg.lookupMaster key := rfl

theorem toNat_numberKey (h : n < intLimit) :
    (stringToInt (numberKey n) % (UInt64.size : Int)).toNat = n := by
  rw [stringToInt_numberKey h, Int.emod_eq_of_lt (by omega), Int.toNat_natCast]
  unfold intLimit at h
  simp only [UInt64.size]
  omega

theorem lookupPartition_numberKey (h : n < intLimit) :
    cfg.lookupPartition (numberKey n) = n % cfg.nodesPerReplica := by
  rw [lookupPartition, toNat_numberKey h]

theorem lookupMaster_numberKey (h : n < intLimit) :
    cfg.lookupMaster (numberKey n) = n / cfg.nodesPerReplica % cfg.replicasSize := by
  rw [lookupMaster, toNat_numberKey h]

end ClusterConfig

end Calvin
