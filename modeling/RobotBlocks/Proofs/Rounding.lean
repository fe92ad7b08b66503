import Mathlib
import RobotBlocks.Rounding

/-! Rounding numbers to whole ones. Rounding keeps the order of numbers, so a number that is limited
before it is rounded gives what it gives when the rounded number is limited. -/

namespace RobotBlocks.Binary64

theorem binade_eq : binade = 2 ^ 52 := rfl

theorem one_eq : one = 2 ^ 1074 := by decide +kernel

theorem one_pos : 0 < one := by decide +kernel

theorem natCast_one_pos : (0 : Int) < one := Int.natCast_pos.mpr one_pos

theorem fdiv_one (n : Int) : n.fdiv one = n / one :=
  Int.fdiv_eq_ediv_of_nonneg n natCast_one_pos.le

section Units

/-- A rank lies below the first power of two, or at a place behind some power of two. -/
theorem rank_cases (rank : Nat) :
    rank < binade ∨ ∃ e f, f < binade ∧ rank = (e + 1) * binade + f := by
  rcases Nat.lt_or_ge rank binade with h | h
  · exact .inl h
  · right
    have hpos : 0 < binade := by decide
    obtain ⟨e, he⟩ := Nat.exists_eq_add_of_le' ((Nat.one_le_div_iff hpos).mpr h)
    refine ⟨e, rank % binade, Nat.mod_lt _ hpos, ?_⟩
    rw [← he, Nat.mul_comm, Nat.div_add_mod]

theorem units_of_lt {rank : Nat} (h : rank < 2 * binade) : units rank = rank := if_pos h

theorem units_behind (e : Nat) {f : Nat} (hf : f < binade) :
    units ((e + 1) * binade + f) = (binade + f) * 2 ^ e := by
  rcases Nat.eq_zero_or_pos e with rfl | he
  · rw [units_of_lt (by omega)]
    omega
  · have hpos : 0 < binade := by decide
    have hle : 2 * binade ≤ (e + 1) * binade := Nat.mul_le_mul_right _ (by omega)
    have hdiv : ((e + 1) * binade + f) / binade = e + 1 := by
      rw [Nat.add_comm, Nat.add_mul_div_right _ _ hpos, Nat.div_eq_of_lt hf, Nat.zero_add]
    have hmod : ((e + 1) * binade + f) % binade = f := by
      rw [Nat.add_comm, Nat.add_mul_mod_self_right, Nat.mod_eq_of_lt hf]
    rw [units, if_neg (by omega), hdiv, hmod]
    rfl

/-- Ranks stand in the order of their magnitudes. -/
theorem units_mono : Monotone units := by
  apply monotone_nat_of_le_succ
  intro rank
  rcases rank_cases rank with h | ⟨e, f, hf, rfl⟩
  · rw [units_of_lt (by omega), units_of_lt (by omega)]
    omega
  · rw [units_behind e hf]
    rcases Nat.lt_or_ge (f + 1) binade with hnext | hlast
    · rw [Nat.add_assoc, units_behind e hnext]
      exact Nat.mul_le_mul_right _ (by omega)
    · -- the next rank is the next power of two
      have hrank : (e + 1) * binade + f + 1 = (e + 1 + 1) * binade + 0 := by
        rw [Nat.succ_mul (e + 1)]
        omega
      rw [hrank, units_behind (e + 1) (by decide), pow_succ, ← mul_assoc, mul_right_comm]
      exact Nat.mul_le_mul_right _ (by omega)

end Units

section Nearest

theorem roundHalfEven_le (num den : Nat) : roundHalfEven num den ≤ num / den + 1 := by
  unfold roundHalfEven
  dsimp only
  split <;> omega

theorem le_roundHalfEven (num den : Nat) : num / den ≤ roundHalfEven num den := by
  unfold roundHalfEven
  dsimp only
  split <;> omega

theorem roundHalfEven_mul (n : Nat) {den : Nat} (h : 0 < den) :
    roundHalfEven (n * den) den = n := by
  simp [roundHalfEven, Nat.mul_div_cancel n h, h]

theorem roundHalfEven_mono (den : Nat) : Monotone (roundHalfEven · den) := by
  intro m n hmn
  have hdiv : m / den ≤ n / den := Nat.div_le_div_right hmn
  rcases Nat.lt_or_ge (m / den) (n / den) with hlt | hge
  · exact (roundHalfEven_le m den).trans (hlt.trans_le (le_roundHalfEven n den))
  · have heq : m / den = n / den := le_antisymm hdiv hge
    have hmod : m % den ≤ n % den := by
      have hm := Nat.div_add_mod m den
      have hn := Nat.div_add_mod n den
      rw [heq] at hm
      omega
    simp only [roundHalfEven, heq]
    split <;> split <;> omega

theorem nearest_one (num : Nat) :
    nearest num 1 =
      (num.log2 - 52) * binade + roundHalfEven num (2 ^ (num.log2 - 52)) := by
  rw [nearest, Nat.div_one, one_mul]
  rfl

/-- The rank nearest to a whole number of units is at most two binades above the shift. -/
theorem nearest_le (num : Nat) :
    nearest num 1 ≤ (num.log2 - 52) * binade + 2 * binade := by
  have hround := roundHalfEven_le num (2 ^ (num.log2 - 52))
  have hquotient : num / 2 ^ (num.log2 - 52) < 2 * binade := by
    have hpow : 2 ^ (num.log2 + 1) ≤ 2 * binade * 2 ^ (num.log2 - 52) := by
      rw [binade_eq, ← pow_succ', ← pow_add]
      exact Nat.pow_le_pow_right (by decide) (by omega)
    exact (Nat.div_lt_iff_lt_mul (Nat.two_pow_pos _)).mpr (Nat.lt_log2_self.trans_le hpow)
  rw [nearest_one]
  omega

/-- Above the least binades it is at least one binade above the shift. -/
theorem le_nearest {num : Nat} (h : 52 ≤ num.log2) :
    (num.log2 - 52) * binade + binade ≤ nearest num 1 := by
  have hround := le_roundHalfEven num (2 ^ (num.log2 - 52))
  have hquotient : binade ≤ num / 2 ^ (num.log2 - 52) := by
    have hzero : num ≠ 0 := by
      rintro rfl
      simp at h
    have hpow : binade * 2 ^ (num.log2 - 52) = 2 ^ num.log2 := by
      rw [binade_eq, ← pow_add, Nat.add_sub_cancel' h]
    rw [Nat.le_div_iff_mul_le (Nat.two_pow_pos _), hpow]
    exact Nat.log2_self_le hzero
  rw [nearest_one]
  omega

theorem nearest_mono : Monotone (nearest · 1) := by
  intro m n hmn
  have hlog : m.log2 ≤ n.log2 := by
    rw [Nat.log2_eq_log_two, Nat.log2_eq_log_two]
    exact Nat.log_mono_right hmn
  rcases Nat.lt_or_ge (m.log2 - 52) (n.log2 - 52) with hlt | hge
  · -- the shifts differ, so the ranks lie in different binades
    have hbinades : (m.log2 - 52) * binade + 2 * binade ≤ (n.log2 - 52) * binade + binade := by
      have hnext := Nat.mul_le_mul_right binade (Nat.succ_le_of_lt hlt)
      rw [Nat.succ_mul] at hnext
      omega
    exact (nearest_le m).trans (hbinades.trans (le_nearest (by omega)))
  · have hshift : m.log2 - 52 = n.log2 - 52 := by omega
    simp only [nearest_one, hshift]
    exact Nat.add_le_add_left (roundHalfEven_mono _ hmn) _

/-- The magnitude of a rank is rounded to that rank. -/
theorem nearest_units (rank : Nat) : nearest (units rank) 1 = rank := by
  rcases rank_cases rank with h | ⟨e, f, hf, rfl⟩
  · have hlog : rank.log2 - 52 = 0 := by
      rcases Nat.eq_zero_or_pos rank with rfl | hpos
      · rfl
      · have hlt : rank.log2 < 52 := (Nat.log2_lt hpos.ne').mpr (binade_eq ▸ h)
        omega
    rw [units_of_lt (by omega), nearest_one, hlog]
    simpa using roundHalfEven_mul rank Nat.one_pos
  · have hlog : ((binade + f) * 2 ^ e).log2 = 52 + e := by
      rw [binade_eq] at hf ⊢
      have hpos : 0 < (2 ^ 52 + f) * 2 ^ e := Nat.mul_pos (by omega) (Nat.two_pow_pos e)
      rw [Nat.log2_eq_iff hpos.ne', Nat.add_right_comm, pow_add, pow_add]
      exact ⟨Nat.mul_le_mul_right _ (by omega),
        Nat.mul_lt_mul_of_pos_right (by omega) (Nat.two_pow_pos e)⟩
    rw [units_behind e hf, nearest_one, hlog, Nat.add_sub_cancel_left,
      roundHalfEven_mul _ (Nat.two_pow_pos e), Nat.succ_mul, Nat.add_assoc]

end Nearest

/-- A magnitude that some rank stands for. -/
def Exact (n : Nat) : Prop := ∃ rank < ranks, units rank = n

section Exact

theorem exact_units (rank : Fin ranks) : Exact (units rank) := ⟨rank, rank.isLt, rfl⟩

/-- Numbers of at most 53 bits are exact, unless they are too small or too large. -/
theorem exact_mul_pow {n e : Nat} (hn : n < 2 ^ 53) (hlow : 52 ≤ e) (hhigh : e ≤ 1074) :
    Exact (n * 2 ^ e) := by
  rcases Nat.eq_zero_or_pos n with rfl | hpos
  · exact ⟨0, by decide, by rw [Nat.zero_mul]; rfl⟩
  -- the bits are moved up until the first of them stands in front
  have hlog : n.log2 ≤ 52 := Nat.le_of_lt_succ ((Nat.log2_lt hpos.ne').mpr hn)
  have hfront : 2 ^ 52 ≤ n * 2 ^ (52 - n.log2) := by
    rw [← Nat.add_sub_cancel' hlog, pow_add, Nat.add_sub_cancel' hlog]
    exact Nat.mul_le_mul_right _ (Nat.log2_self_le hpos.ne')
  have hbehind : n * 2 ^ (52 - n.log2) < 2 ^ 53 := by
    have hpow : 2 ^ (n.log2 + 1) * 2 ^ (52 - n.log2) = 2 ^ 53 := by
      rw [← pow_add]
      congr 1
      omega
    rw [← hpow]
    exact Nat.mul_lt_mul_of_pos_right Nat.lt_log2_self (Nat.two_pow_pos _)
  have hf : n * 2 ^ (52 - n.log2) - binade < binade := by
    rw [binade_eq]
    omega
  refine ⟨(e + n.log2 - 52 + 1) * binade + (n * 2 ^ (52 - n.log2) - binade), ?_, ?_⟩
  · have hrank := Nat.mul_le_mul_right binade (show e + n.log2 - 52 + 1 + 1 ≤ 2047 by omega)
    rw [Nat.succ_mul] at hrank
    rw [ranks]
    omega
  · rw [units_behind _ hf, binade_eq, Nat.add_sub_cancel' hfront, mul_assoc, ← pow_add]
    congr 2
    omega

theorem exact_mul_one {n : Nat} (h : n ≤ binade) : Exact (n * one) := by
  rw [one_eq]
  exact exact_mul_pow (h.trans_lt (by decide)) (by decide) le_rfl

/-- A number that is not whole is small. -/
theorem units_lt_of_not_dvd {rank : Nat} (h : ¬one ∣ units rank) :
    units rank < binade * one := by
  rcases rank_cases rank with hrank | ⟨e, f, hf, rfl⟩
  · rw [units_of_lt (by omega)]
    calc rank < binade * 1 := by omega
      _ ≤ binade * one := Nat.mul_le_mul_left binade one_pos
  · obtain ⟨k, hk⟩ : ∃ k, one = 2 ^ k := ⟨1074, one_eq⟩
    rw [units_behind e hf, hk] at h ⊢
    have he : e + 1 ≤ k := by
      by_contra hlt
      exact h (Dvd.dvd.mul_left (pow_dvd_pow 2 (by omega)) _)
    calc (binade + f) * 2 ^ e < binade * 2 * 2 ^ e :=
          Nat.mul_lt_mul_of_pos_right (by omega) (Nat.two_pow_pos e)
      _ = binade * 2 ^ (e + 1) := by rw [mul_assoc, pow_succ']
      _ ≤ binade * 2 ^ k := Nat.mul_le_mul_left _ (pow_le_pow_right₀ (by decide) he)

theorem natAbs_signed (s : Bool) (n : Nat) : (signed s n).natAbs = n := by
  cases s <;> simp [signed]

/-- The whole part of a number is exact. -/
theorem exact_whole (s : Bool) (rank : Fin ranks) :
    Exact ((signed s (units rank)).fdiv one * one).natAbs := by
  by_cases hdvd : one ∣ units rank
  · have hwhole : (one : Int) ∣ signed s (units rank) := by
      rw [← Int.natCast_dvd_natCast] at hdvd
      cases s
      · exact hdvd
      · exact (dvd_neg).mpr hdvd
    rw [Int.fdiv_mul_cancel hwhole, natAbs_signed]
    exact exact_units rank
  · have hsmall : (units rank : Int) < binade * one := by
      exact_mod_cast units_lt_of_not_dvd hdvd
    have hlow : -(binade : Int) ≤ (signed s (units rank)).fdiv one := by
      rw [fdiv_one, Int.le_ediv_iff_mul_le natCast_one_pos, neg_mul]
      unfold signed
      split <;> omega
    have hhigh : (signed s (units rank)).fdiv one < binade := by
      rw [fdiv_one, Int.ediv_lt_iff_lt_mul natCast_one_pos]
      unfold signed
      split <;> omega
    rw [Int.natAbs_mul, Int.natAbs_natCast]
    exact exact_mul_one (by omega)

/-- A number with an exact magnitude is not changed by rounding. -/
theorem ofUnits_exact {n : Int} (h : Exact n.natAbs) :
    ∃ s rank, ofUnits n = finite s rank ∧ signed s (units rank) = n := by
  obtain ⟨rank, hrank, hunits⟩ := h
  have hnearest : nearest n.natAbs 1 = rank := by rw [← hunits, nearest_units]
  refine ⟨decide (n < 0), ⟨rank, hrank⟩, ?_, ?_⟩
  · rw [ofUnits, round, ofRank, dif_pos (hnearest.trans_lt hrank)]
    simp [hnearest]
  · simp only [signed, hunits, decide_eq_true_eq]
    split <;> omega

end Exact

/-- The greatest whole number not above, kept within `low` and `high`. NaN gives zero. -/
def floorWithin (low high : Int) : Binary64 → Int
  | nan => 0
  | infinite true => low
  | infinite false => high
  | finite s rank => max low (min high ((signed s (units rank)).fdiv one))

/-- The nearest whole number, a half upwards, kept within `low` and `high`. -/
def roundWithin (low high : Int) (x : Binary64) : Int := (x + half).floorWithin low high

section Floor

variable {low high : Int}

theorem floorWithin_mem (x : Binary64) (hlow : low ≤ 0) (hhigh : 0 ≤ high) :
    low ≤ x.floorWithin low high ∧ x.floorWithin low high ≤ high := by
  cases x with
  | nan => exact ⟨hlow, hhigh⟩
  | infinite s =>
    cases s with
    | true => exact ⟨le_rfl, hlow.trans hhigh⟩
    | false => exact ⟨hlow.trans hhigh, le_rfl⟩
  | finite s rank => exact ⟨le_max_left _ _, max_le (hlow.trans hhigh) (min_le_left _ _)⟩

theorem floor_finite (s : Bool) (rank : Fin ranks) :
    ∃ t r, (finite s rank).floor = finite t r ∧
      signed t (units r) = (signed s (units rank)).fdiv one * one := by
  rw [floor]
  split
  next hzero =>
    refine ⟨s, ⟨0, by decide⟩, rfl, ?_⟩
    rw [hzero, zero_mul]
    cases s <;> rfl
  next => exact ofUnits_exact (exact_whole s rank)

/-- The whole part of a whole number is the number. -/
theorem truncateWithin_floor (x : Binary64) :
    x.floor.truncateWithin low high = x.floorWithin low high := by
  cases x with
  | nan => rfl
  | infinite s => cases s <;> rfl
  | finite s rank =>
    obtain ⟨t, r, hfloor, hunits⟩ := floor_finite s rank
    rw [hfloor, truncateWithin, hunits, Int.mul_tdiv_cancel _ natCast_one_pos.ne', floorWithin]

theorem floorWithin_ofUnits {n : Int} (h : Exact n.natAbs) :
    (ofUnits n).floorWithin low high = max low (min high (n.fdiv one)) := by
  obtain ⟨s, rank, hn, hunits⟩ := ofUnits_exact h
  rw [hn, floorWithin, hunits]

end Floor

section Order

theorem fdiv_one_mono : Monotone fun n : Int => n.fdiv one := by
  intro m n hmn
  simp only [fdiv_one]
  exact Int.ediv_le_ediv natCast_one_pos hmn

theorem floorWithin_zero (low high : Int) (s : Bool) :
    (zero s).floorWithin low high = max low (min high 0) := by
  have hzero : signed s (units 0) = 0 := by cases s <;> rfl
  show max low (min high ((signed s (units 0)).fdiv one)) = _
  rw [hzero, Int.zero_fdiv]

variable {low high : Int} (hlow : low ≤ 0) (hhigh : 0 ≤ high)

include hlow hhigh

theorem floorWithin_ofRank_mono {r t : Nat} (h : r ≤ t) :
    (ofRank false r).floorWithin low high ≤ (ofRank false t).floorWithin low high ∧
      (ofRank true t).floorWithin low high ≤ (ofRank true r).floorWithin low high := by
  by_cases ht : t < ranks
  · have hunits : (units r : Int) ≤ units t := Int.ofNat_le.mpr (units_mono h)
    rw [ofRank, ofRank, ofRank, ofRank, dif_pos ht, dif_pos ht, dif_pos (h.trans_lt ht),
      dif_pos (h.trans_lt ht)]
    exact ⟨max_le_max_left _ (min_le_min_left _ (fdiv_one_mono hunits)),
      max_le_max_left _ (min_le_min_left _ (fdiv_one_mono (Int.neg_le_neg hunits)))⟩
  · rw [ofRank, ofRank, ofRank, ofRank, dif_neg ht, dif_neg ht]
    exact ⟨(floorWithin_mem _ hlow hhigh).2, (floorWithin_mem _ hlow hhigh).1⟩

/-- Rounding to a number keeps the order. -/
theorem floorWithin_ofUnits_mono : Monotone fun n => (ofUnits n).floorWithin low high := by
  intro m n hmn
  show (ofRank (m < 0) (nearest m.natAbs 1)).floorWithin low high ≤
    (ofRank (n < 0) (nearest n.natAbs 1)).floorWithin low high
  by_cases hn : n < 0
  · rw [decide_eq_true hn, decide_eq_true (hmn.trans_lt hn)]
    exact (floorWithin_ofRank_mono hlow hhigh (nearest_mono (by omega))).2
  rw [decide_eq_false hn]
  by_cases hm : m < 0
  · -- zero lies between them
    rw [decide_eq_true hm]
    calc (ofRank true (nearest m.natAbs 1)).floorWithin low high
        ≤ (ofRank true 0).floorWithin low high :=
          (floorWithin_ofRank_mono hlow hhigh (Nat.zero_le _)).2
      _ = (ofRank false 0).floorWithin low high :=
          (floorWithin_zero low high true).trans (floorWithin_zero low high false).symm
      _ ≤ (ofRank false (nearest n.natAbs 1)).floorWithin low high :=
          (floorWithin_ofRank_mono hlow hhigh (Nat.zero_le _)).1
  · rw [decide_eq_false hm]
    exact (floorWithin_ofRank_mono hlow hhigh (nearest_mono (by omega))).1

end Order

section Round

/-- One half is exact. -/
theorem exists_half :
    ∃ s rank, half = finite s rank ∧ signed s (units rank) = ((one / 2 : Nat) : Int) := by
  apply ofUnits_exact
  have hhalf : one / 2 = 1 * 2 ^ 1073 := by decide +kernel
  rw [Int.natAbs_natCast, hhalf]
  exact exact_mul_pow (by decide) (by decide) (by decide)

theorem infinite_add_half (s : Bool) : infinite s + half = infinite s := by
  obtain ⟨t, rank, hhalf, -⟩ := exists_half
  rw [hhalf]
  rfl

variable {low high : Int}

theorem roundWithin_finite (s : Bool) (rank : Fin ranks) :
    (finite s rank).roundWithin low high =
      (ofUnits (signed s (units rank) + (one / 2 : Nat))).floorWithin low high := by
  obtain ⟨t, r, hhalf, hunits⟩ := exists_half
  have hadd : finite s rank + finite t r =
      if signed s (units rank) + signed t (units r) = 0 then zero (s && t)
      else ofUnits (signed s (units rank) + signed t (units r)) := rfl
  rw [roundWithin, hhalf, hadd, hunits]
  split
  next hsum =>
    have hexact : Exact (0 : Int).natAbs := exact_units ⟨0, by decide⟩
    rw [hsum, floorWithin_zero, floorWithin_ofUnits hexact, Int.zero_fdiv]
  next => rfl

theorem roundWithin_mem (x : Binary64) (hlow : low ≤ 0) (hhigh : 0 ≤ high) :
    low ≤ x.roundWithin low high ∧ x.roundWithin low high ≤ high :=
  floorWithin_mem _ hlow hhigh

/-- Rounding to a whole number keeps the order. -/
theorem roundWithin_mono (hlow : low ≤ 0) (hhigh : 0 ≤ high) {x y : Binary64}
    (hx : x.isNaN = false) (hy : y.isNaN = false) (h : y.lt x = false) :
    x.roundWithin low high ≤ y.roundWithin low high := by
  have hmem (z : Binary64) := z.roundWithin_mem hlow hhigh
  have hleast : (infinite true).roundWithin low high = low := by
    rw [roundWithin, infinite_add_half]
    rfl
  have hgreatest : (infinite false).roundWithin low high = high := by
    rw [roundWithin, infinite_add_half]
    rfl
  cases x with
  | nan => cases hx
  | infinite s =>
    cases s with
    | true => exact hleast.trans_le (hmem y).1
    | false =>
      cases y with
      | nan => cases hy
      | infinite t =>
        cases t with
        | true => cases h
        | false => exact le_rfl
      | finite t b => cases h
  | finite s a =>
    cases y with
    | nan => cases hy
    | infinite t =>
      cases t with
      | true => cases h
      | false => exact (hmem (finite s a)).2.trans_eq hgreatest.symm
    | finite t b =>
      have hle : signed s (units a) ≤ signed t (units b) := Int.not_lt.mp (of_decide_eq_false h)
      rw [roundWithin_finite, roundWithin_finite]
      exact floorWithin_ofUnits_mono hlow hhigh (Int.add_le_add_right hle _)

theorem isNaN_ofRank (s : Bool) (rank : Nat) : (ofRank s rank).isNaN = false := by
  unfold ofRank
  split <;> rfl

theorem isNaN_ofInt (n : Int) : (ofInt n).isNaN = false := isNaN_ofRank _ _

theorem isNaN_add_half {x : Binary64} (h : x.isNaN = false) : (x + half).isNaN = false := by
  obtain ⟨t, r, hhalf, -⟩ := exists_half
  rw [hhalf]
  cases x with
  | nan => cases h
  | infinite s => rfl
  | finite s a =>
    show (if _ then zero _ else ofUnits _).isNaN = false
    split <;> exact isNaN_ofRank _ _

theorem ofInt_exact {n : Int} (h : n.natAbs ≤ binade) :
    ∃ s rank, ofInt n = finite s rank ∧ signed s (units rank) = n * one := by
  apply ofUnits_exact
  rw [Int.natAbs_mul, Int.natAbs_natCast]
  exact exact_mul_one h

/-- With one half added, a whole number that leaves a bit for it is exact. -/
theorem floorWithin_whole {n : Int} (hn : n.natAbs ≤ 2 ^ 51) :
    (ofUnits (n * one + (one / 2 : Nat))).floorWithin low high = max low (min high n) := by
  obtain ⟨e, he, hone⟩ : ∃ e, (52 ≤ e ∧ e ≤ 1074) ∧ one = 2 * 2 ^ e :=
    ⟨1073, by decide, by decide +kernel⟩
  have hhalf : one / 2 = 2 ^ e := by omega
  have hsum : n * one + (one / 2 : Nat) = (2 * n + 1) * ((2 ^ e : Nat) : Int) := by
    rw [hhalf, hone]
    push_cast
    ring
  have hexact : Exact (n * one + (one / 2 : Nat)).natAbs := by
    rw [hsum, Int.natAbs_mul, Int.natAbs_natCast]
    exact exact_mul_pow (by omega) he.1 he.2
  have hfloor : (n * one + (one / 2 : Nat)).fdiv one = n := by
    have hpos := natCast_one_pos
    rw [fdiv_one, Int.add_comm, Int.add_mul_ediv_right _ _ hpos.ne',
      Int.ediv_eq_zero_of_lt (by omega) (by omega), zero_add]
  rw [floorWithin_ofUnits hexact, hfloor]

/-- Within limits that leave a bit for one half, a whole number is rounded to itself. -/
theorem roundWithin_whole (hlow : low ≤ 0) (hhigh : 0 ≤ high) (hleast : -2 ^ 51 ≤ low)
    (hgreatest : high ≤ 2 ^ 51) {s : Bool} {rank : Fin ranks} {n : Int}
    (hunits : signed s (units rank) = n * one) :
    (finite s rank).roundWithin low high = max low (min high n) := by
  have hmem := (finite s rank).roundWithin_mem hlow hhigh
  have hmono {m n : Int} (h : m ≤ n) :
      (ofUnits (m * one + (one / 2 : Nat))).floorWithin low high ≤
        (ofUnits (n * one + (one / 2 : Nat))).floorWithin low high :=
    floorWithin_ofUnits_mono hlow hhigh
      (Int.add_le_add_right (Int.mul_le_mul_of_nonneg_right h (Int.natCast_nonneg one)) _)
  rw [roundWithin_finite, hunits] at hmem ⊢
  rcases Int.lt_or_le n low with h | h
  · have hle := hmono h.le
    rw [floorWithin_whole (n := low) (by omega)] at hle
    omega
  rcases Int.lt_or_le high n with h' | h'
  · have hle := hmono h'.le
    rw [floorWithin_whole (n := high) (by omega)] at hle
    omega
  · exact floorWithin_whole (by omega)

/-- Limiting to a range and then to a part of it is limiting to the part. -/
theorem floorWithin_within {least greatest : Int} (hleast : least ≤ low) (hlow : low ≤ 0)
    (hhigh : 0 ≤ high) (hgreatest : high ≤ greatest) (x : Binary64) :
    x.floorWithin low high = max low (min high (x.floorWithin least greatest)) := by
  cases x with
  | nan =>
    simp only [floorWithin]
    omega
  | infinite s => cases s <;> simp only [floorWithin] <;> omega
  | finite s rank =>
    simp only [floorWithin]
    omega

theorem lt_asymm {x y : Binary64} (h : x.lt y = true) : y.lt x = false := by
  cases x with
  | nan => cases h
  | infinite s =>
    cases y with
    | nan => rfl
    | infinite t => cases s <;> cases t <;> simp_all [lt]
    | finite t b => cases s <;> simp_all [lt]
  | finite s a =>
    cases y with
    | nan => rfl
    | infinite t => cases t <;> simp_all [lt]
    | finite t b => exact decide_eq_false (Int.not_lt.mpr (of_decide_eq_true h).le)

theorem lt_whole {s t : Bool} {a b : Fin ranks} {m n : Int}
    (hm : signed s (units a) = m * one) (hn : signed t (units b) = n * one) :
    (finite s a).lt (finite t b) = decide (m < n) := by
  rw [lt, hm, hn, decide_eq_decide, Int.mul_lt_mul_right natCast_one_pos]

section Compare

variable {n : Int} {x : Binary64} (hn : n.natAbs ≤ binade) (hx : x.isNaN = false)

include hn hx

theorem floor_lt_ofInt (hlow : low < n) (hhigh : n ≤ high) :
    x.floor.lt (ofInt n) = decide (x.floorWithin low high < n) := by
  obtain ⟨t, b, hnumber, hunits⟩ := ofInt_exact hn
  rw [hnumber]
  cases x with
  | nan => cases hx
  | infinite s =>
    cases s with
    | true => exact (decide_eq_true hlow).symm
    | false => exact (decide_eq_false (Int.not_lt.mpr hhigh)).symm
  | finite s a =>
    obtain ⟨r, c, hfloor, hwhole⟩ := floor_finite s a
    rw [hfloor, lt_whole hwhole hunits, decide_eq_decide, floorWithin]
    omega

theorem ofInt_lt_floor (hlow : low ≤ n) (hhigh : n < high) :
    (ofInt n).lt x.floor = decide (n < x.floorWithin low high) := by
  obtain ⟨t, b, hnumber, hunits⟩ := ofInt_exact hn
  rw [hnumber]
  cases x with
  | nan => cases hx
  | infinite s =>
    cases s with
    | true => exact (decide_eq_false (Int.not_lt.mpr hlow)).symm
    | false => exact (decide_eq_true hhigh).symm
  | finite s a =>
    obtain ⟨r, c, hfloor, hwhole⟩ := floor_finite s a
    rw [hfloor, lt_whole hunits hwhole, decide_eq_decide, floorWithin]
    omega

end Compare

/-- Rounding a rounded number does not change it. -/
theorem roundWithin_floor (hlow : low ≤ 0) (hhigh : 0 ≤ high) (hleast : -2 ^ 51 ≤ low)
    (hgreatest : high ≤ 2 ^ 51) (x : Binary64) :
    x.floor.roundWithin low high = x.floorWithin low high := by
  cases x with
  | nan => rfl
  | infinite s => rw [floor, roundWithin, infinite_add_half]
  | finite s a =>
    obtain ⟨t, b, hfloor, hunits⟩ := floor_finite s a
    rw [hfloor, roundWithin_whole hlow hhigh hleast hgreatest hunits, floorWithin]

end Round

section Operands

/-- A number that is limited before it is rounded gives what it gives when it is rounded first. -/
theorem truncateWithin_limited {least low high greatest : Int} (hleast : least ≤ low)
    (hlow : low ≤ 0) (hhigh : 0 ≤ high) (hgreatest : high ≤ greatest)
    (hleast' : -2 ^ 51 ≤ least) (hgreatest' : greatest ≤ 2 ^ 51) (x : Binary64) :
    (x.limited low high).truncateWithin least greatest = x.roundWithin low high := by
  have hmem := x.roundWithin_mem hlow hhigh
  have hpart : x.roundWithin low high = max low (min high (x.roundWithin least greatest)) :=
    floorWithin_within hleast hlow hhigh hgreatest _
  have hmono {y z : Binary64} (hy : y.isNaN = false) (hz : z.isNaN = false)
      (h : z.lt y = false) : y.roundWithin least greatest ≤ z.roundWithin least greatest :=
    roundWithin_mono (hleast.trans hlow) (hhigh.trans hgreatest) hy hz h
  have hlimit {n : Int} (hn : least ≤ n ∧ n ≤ greatest) :
      (ofInt n).roundWithin least greatest = n := by
    have hsmall : n.natAbs ≤ 2 ^ 52 := by omega
    obtain ⟨s, rank, hnumber, hunits⟩ := ofInt_exact hsmall
    rw [hnumber, roundWithin_whole (hleast.trans hlow) (hhigh.trans hgreatest) hleast' hgreatest'
      hunits]
    omega
  rw [limited, roundHalfUp, truncateWithin_floor]
  show roundWithin least greatest _ = _
  split
  next hnan =>
    have hzero : zero false = ofInt 0 := by decide +kernel
    cases x with
    | nan => rw [hzero, hlimit (by omega)]; rfl
    | infinite s => cases hnan
    | finite s a => cases hnan
  next hnan =>
    have hx : x.isNaN = false := Bool.eq_false_of_not_eq_true hnan
    unfold clamp
    split
    next hbelow =>
      have hle := hmono hx (isNaN_ofInt low) (lt_asymm hbelow)
      rw [hlimit (by omega)] at hle ⊢
      omega
    next hbelow =>
      split
      next habove =>
        have hle := hmono (isNaN_ofInt high) hx (lt_asymm habove)
        rw [hlimit (by omega)] at hle ⊢
        omega
      next habove =>
        have hlower := hmono (isNaN_ofInt low) hx (Bool.eq_false_of_not_eq_true hbelow)
        have hupper := hmono hx (isNaN_ofInt high) (Bool.eq_false_of_not_eq_true habove)
        rw [hlimit (by omega)] at hlower hupper
        omega

theorem toSpeed_eq (x : Binary64) : x.toSpeed = (x.roundWithin (-100) 100).toInt8 := by
  rw [toSpeed, truncateWithin_limited] <;> decide

theorem toPercent_eq (x : Binary64) : x.toPercent = (x.roundWithin 0 100).toNat.toUInt8 := by
  rw [toPercent, truncateWithin_limited] <;> decide

theorem toMillis_eq (seconds : Binary64) :
    seconds.toMillis = ((seconds * ofNat 1000).roundWithin 0 65535).toNat.toUInt16 := by
  rw [toMillis, truncateWithin_limited] <;> decide

theorem toWord_eq (x : Binary64) :
    x.toWord =
      (if x.roundWithin minWhole maxWhole < 0 then x.roundWithin minWhole maxWhole % 65536
        else min 65535 (x.roundWithin minWhole maxWhole)).toNat.toUInt16 := by
  cases hx : x.isNaN with
  | true =>
    cases x with
    | nan => decide +kernel
    | infinite s => cases hx
    | finite s a => cases hx
  | false =>
    have hsum : (x + half).isNaN = false := isNaN_add_half hx
    have hpart : (x + half).floorWithin 0 65535 =
        max 0 (min 65535 (x.roundWithin minWhole maxWhole)) :=
      floorWithin_within (by decide) le_rfl (by decide) (by decide) _
    have hneg : x.roundHalfUp.lt (ofNat 0) = decide (x.roundWithin minWhole maxWhole < 0) :=
      floor_lt_ofInt (by decide) hsum (by decide) (by decide)
    have hlarge : (ofNat 65535).lt x.roundHalfUp =
        decide (65535 < x.roundWithin minWhole maxWhole) :=
      ofInt_lt_floor (by decide) hsum (by decide) (by decide)
    have hwhole (low high : Int) :
        x.roundHalfUp.truncateWithin low high = (x + half).floorWithin low high :=
      truncateWithin_floor _
    simp only [toWord, hx, hneg, hlarge, hwhole, hpart, decide_eq_true_eq, Bool.false_eq_true,
      if_false]
    split
    next => rfl
    next hnonneg =>
      split
      next h => rw [min_eq_left h.le]; rfl
      next => rw [max_eq_right (by omega)]

/-- Rounding twice is rounding once. -/
theorem toCount_eq (x : Binary64) :
    x.toCount = (max 1 (x.roundWithin 0 65535)).toNat.toUInt16 := by
  have hpart : x.roundWithin 0 65535 = max 0 (min 65535 (x.roundWithin minWhole maxWhole)) :=
    floorWithin_within (by decide) le_rfl (by decide) (by decide) _
  have hleast : (ofNat 1).toWord = 1 := by decide +kernel
  cases hx : x.isNaN with
  | true =>
    cases x with
    | nan => decide +kernel
    | infinite s => cases hx
    | finite s a => cases hx
  | false =>
    have hlt : (ofNat 1).lt x.roundHalfUp = decide (1 < x.roundWithin minWhole maxWhole) :=
      ofInt_lt_floor (by decide) (isNaN_add_half hx) (by decide) (by decide)
    rw [toCount, atLeast, hlt]
    split
    next h =>
      have hfirst : x.roundHalfUp.roundWithin 0 65535 = x.roundWithin 0 65535 :=
        roundWithin_floor le_rfl (by decide) (by decide) (by decide) _
      have hsecond : x.roundHalfUp.roundWithin 0 65535 =
          max 0 (min 65535 (x.roundHalfUp.roundWithin minWhole maxWhole)) :=
        floorWithin_within (by decide) le_rfl (by decide) (by decide) _
      have hmore := of_decide_eq_true h
      have hcount : min 65535 (x.roundHalfUp.roundWithin minWhole maxWhole) =
          max 1 (x.roundWithin 0 65535) := by omega
      rw [toWord_eq, if_neg (by omega), hcount]
    next h =>
      have hless : ¬1 < x.roundWithin minWhole maxWhole := by simpa using h
      rw [hleast, hpart, max_eq_left (by omega)]
      rfl

end Operands

end RobotBlocks.Binary64
