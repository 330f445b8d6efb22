import Mathlib
import RangeBook.Proofs.Curve.Room

/-!
# Next prices and the amounts on the way to them

The price after a trade and the amount between two prices invert each other up to rounding, and the
rounding never favours the trader. The way to the price after an input costs no more than the input,
and the way to the price after an output gives out no less than the output
(`nextPrice_inverts_amount`).

An output takes the price no further than it has to. Token one is given out in step with the
distance from the price, so no price on either side that gives out as much lies nearer
(`nearest_of_givesOut_one`). A step of the price is worth the more of token zero the lower it is
taken. There the next price is the nearest of those above the price (`nearest_of_givesOut_zero`),
and a price below may be nearer than it (`nearer_price_below`).
-/

set_option autoImplicit false
set_option relaxedAutoImplicit false

namespace RangeBook.Curve

variable {price next far liquidity amount : ℕ} {paid : Token}

theorem priceAfterInput_bounds (hpos : 0 < price) (hlt : price < twoPow 160)
    (hliquidity : 0 < liquidity)
    (h : priceAfterInput price liquidity amount paid = .ok next) :
    0 < next ∧ next < twoPow 160 := by
  obtain ⟨_, -, h⟩ := bind_eq_ok.mp h
  obtain ⟨_, -, h⟩ := bind_eq_ok.mp h
  cases paid with
  | zero =>
    have hlowered := lowered_of_priceAfterZeroIn hpos (lt_trans hlt (by decide)) hliquidity h
    exact ⟨hlowered.pos, lt_of_le_of_lt hlowered.le_price hlt⟩
  | one =>
    obtain ⟨hnext, rfl⟩ := (priceAfterOneIn_eq_ok_iff hliquidity).mp h
    exact ⟨Nat.add_pos_left hpos _, hnext⟩

theorem priceAfterOutput_bounds (hlt : price < twoPow 160) (hliquidity : 0 < liquidity)
    (hwidth : liquidity < twoPow 128)
    (h : priceAfterOutput price liquidity amount paid = .ok next) :
    0 < next ∧ next < twoPow 160 ∧ paid.Leads price next := by
  obtain ⟨_, hpos, h⟩ := bind_eq_ok.mp h
  obtain ⟨_, -, h⟩ := bind_eq_ok.mp h
  rw [require_eq_ok] at hpos
  cases paid with
  | zero =>
    obtain ⟨hless, rfl⟩ :=
      (priceAfterOneOut_eq_ok_iff (lt_trans hlt (by decide)) hliquidity).mp h
    exact ⟨Nat.sub_pos_of_lt hless, lt_of_le_of_lt (Nat.sub_le _ _) hlt, Nat.sub_le _ _⟩
  | one =>
    obtain ⟨hfits, hnext, hceil⟩ :=
      (priceAfterZeroOut_eq_ok_iff hlt hliquidity hwidth).mp h
    have hreached := (divCeil_le_iff (Nat.sub_pos_of_lt hfits)).mp hceil.ge
    have hle : price ≤ next := by
      refine Nat.le_of_mul_le_mul_left ?_ (Nat.mul_pos hliquidity q96_pos)
      calc liquidity * q96 * price
          ≤ next * (liquidity * q96 - amount * price) := hreached
        _ ≤ next * (liquidity * q96) := Nat.mul_le_mul_left next (Nat.sub_le _ _)
        _ = liquidity * q96 * next := Nat.mul_comm _ _
    exact ⟨lt_of_lt_of_le (Nat.pos_of_ne_zero hpos) hle, hnext, hle⟩

/-- Whether the curve gives out at least an amount of a token between two prices, after rounding. -/
def GivesOut (token : Token) (price far liquidity amount : ℕ) : Prop :=
  ∃ given, Curve.amount token .down price far liquidity = .ok given ∧ amount ≤ given

theorem GivesOut.le_exactAmount {token : Token} (h : GivesOut token price far liquidity amount) :
    (amount : ℚ) ≤ exactAmount token price far liquidity := by
  obtain ⟨given, hgiven, hle⟩ := h
  exact (le_amount_down_iff hgiven).mp hle

/-- No price that gives out as much of token one is nearer than the next price, on either side. -/
theorem nearest_of_givesOut_one (hprice : price < twoPow 256) (hliquidity : 0 < liquidity)
    (h : priceAfterOutput price liquidity amount .zero = .ok next)
    (hgives : GivesOut .one price far liquidity amount) :
    Nat.dist price next ≤ Nat.dist price far := by
  obtain ⟨_, -, h⟩ := bind_eq_ok.mp h
  obtain ⟨_, -, h⟩ := bind_eq_ok.mp h
  obtain ⟨hless, rfl⟩ := (priceAfterOneOut_eq_ok_iff hprice hliquidity).mp h
  obtain ⟨given, hgiven, hle⟩ := hgives
  obtain ⟨-, -, hfloor⟩ := mulDivFloor_eq_ok.mp hgiven
  have hreach : amount * q96 ≤ liquidity * (max price far - min price far) :=
    (Nat.le_div_iff_mul_le q96_pos).mp (hfloor ▸ hle)
  rw [Nat.dist_eq_sub_of_le_right (Nat.sub_le _ _), Nat.sub_sub_self hless.le,
    Nat.dist_eq_max_sub_min, divCeil_le_iff hliquidity, Nat.mul_comm _ liquidity]
  exact hreach

/-- No price above that gives out as much of token zero is nearer than the next price. -/
theorem nearest_of_givesOut_zero (hpos : 0 < price) (habove : price ≤ far)
    (h : priceAfterOutput price liquidity amount .one = .ok next)
    (hgives : GivesOut .zero price far liquidity amount) :
    Nat.dist price next ≤ Nat.dist price far := by
  have htoward : Token.one.Leads price far := habove
  obtain ⟨hnear, hfar⟩ : price ≤ next ∧ next ≤ far :=
    priceAfterOutput_between (lt_of_lt_of_le hpos habove) htoward hgives.le_exactAmount h
  rw [Nat.dist_eq_sub_of_le hnear, Nat.dist_eq_sub_of_le habove]
  exact Nat.sub_le_sub_right hfar price

/-- The way to the price after an input costs at most the input, rounded up. The way to the price
after an output gives out at least the output, rounded down. Of the prices that do, this is the
nearest, where token one is given out of all of them and where token zero is of those that are no
lower than the price. -/
theorem nextPrice_inverts_amount (hprice : 0 < price ∧ price < twoPow 160)
    (hliquidity : 0 < liquidity ∧ liquidity < twoPow 128) (amount : ℕ) (paid : Token) :
    (∀ next, priceAfterInput price liquidity amount paid = .ok next →
      ∃ taken, Curve.amount paid .up price next liquidity = .ok taken ∧ taken ≤ amount) ∧
    ∀ next, priceAfterOutput price liquidity amount paid = .ok next →
      paid.Leads price next ∧ GivesOut paid.other price next liquidity amount ∧
      ∀ far, GivesOut paid.other price far liquidity amount → (paid = .one → price ≤ far) →
        Nat.dist price next ≤ Nat.dist price far := by
  obtain ⟨hpos, hlt⟩ := hprice
  obtain ⟨hliquidity, hwidth⟩ := hliquidity
  refine ⟨fun next hnext ↦ ?_, fun next hnext ↦ ?_⟩
  · obtain ⟨hnextPos, hnextLt⟩ := priceAfterInput_bounds hpos hlt hliquidity hnext
    obtain ⟨taken, htaken⟩ : ∃ taken, Curve.amount paid .up price next liquidity = .ok taken :=
      (amount_finishes_of_lt .up (lt_min hpos hnextPos) (max_lt hlt hnextLt) hwidth).exists_eq_ok
    exact ⟨taken, htaken,
      (amount_up_le_iff htaken).mpr (exactAmount_priceAfterInput_le hnext)⟩
  · obtain ⟨hnextPos, hnextLt, htoward⟩ := priceAfterOutput_bounds hlt hliquidity hwidth hnext
    obtain ⟨given, hgiven⟩ : ∃ given,
        Curve.amount paid.other .down price next liquidity = .ok given :=
      (amount_finishes_of_lt .down (lt_min hpos hnextPos) (max_lt hlt hnextLt) hwidth).exists_eq_ok
    refine ⟨htoward, ⟨given, hgiven, ?_⟩, fun far hfar hside ↦ ?_⟩
    · exact (le_amount_down_iff hgiven).mpr (le_exactAmount_priceAfterOutput hnext)
    cases paid with
    | zero => exact nearest_of_givesOut_one (lt_trans hlt (by decide)) hliquidity hnext hfar
    | one => exact nearest_of_givesOut_zero hpos (hside rfl) hnext hfar

/-- A price at which a unit of token zero is worth far more than one of token one. -/
def highPrice : ℕ :=
  1025574284609383690408304870162715216695788925244

/-- A liquidity that holds many units of token one in a single step of the price. -/
def deepLiquidity : ℕ :=
  50015962439936049619261659728067971248

/-- At a high price and a large liquidity a small input is paid for in full, and an output as small
moves the price by one unit, which gives out far more. So does one unit above the price, and it is no
nearer. At the price one an output of token zero takes the price no further than to two. -/
theorem nextPrice_inverts_amount_highPrice :
    ((priceAfterInput highPrice deepLiquidity 406 .zero =
        .ok 1025574284609383582644711336373707553698163132913 ∧
      ∃ taken, Curve.amount .zero .up highPrice 1025574284609383582644711336373707553698163132913
        deepLiquidity = .ok taken ∧ taken ≤ 406) ∧
      priceAfterOutput highPrice deepLiquidity 406 .zero = .ok (highPrice - 1) ∧
      GivesOut .one highPrice (highPrice - 1) deepLiquidity 406 ∧
      GivesOut .one highPrice (highPrice + 1) deepLiquidity 406 ∧
      Nat.dist highPrice (highPrice - 1) ≤ Nat.dist highPrice (highPrice + 1)) ∧
    priceAfterOutput q96 1000 100 .one = .ok 88031291682515930659493278152 ∧
    GivesOut .zero q96 (2 * q96) 1000 100 ∧
    Nat.dist q96 88031291682515930659493278152 ≤ Nat.dist q96 (2 * q96) := by
  have hinput : priceAfterInput highPrice deepLiquidity 406 .zero =
      .ok 1025574284609383582644711336373707553698163132913 := by decide +kernel
  have hfall : priceAfterOutput highPrice deepLiquidity 406 .zero = .ok (highPrice - 1) := by
    decide +kernel
  have habove : GivesOut .one highPrice (highPrice + 1) deepLiquidity 406 :=
    ⟨631290198, by decide +kernel, by decide⟩
  obtain ⟨hcosts, hgives⟩ := nextPrice_inverts_amount
    (show 0 < highPrice ∧ highPrice < twoPow 160 by decide)
    (show 0 < deepLiquidity ∧ deepLiquidity < twoPow 128 by decide) 406 .zero
  obtain ⟨-, hmoved, hnearest⟩ := hgives _ hfall
  have hrise : priceAfterOutput q96 1000 100 .one = .ok 88031291682515930659493278152 := by
    decide +kernel
  have htwice : GivesOut .zero q96 (2 * q96) 1000 100 := ⟨500, by decide +kernel, by decide⟩
  obtain ⟨-, -, hnearestAbove⟩ := (nextPrice_inverts_amount
    (show 0 < q96 ∧ q96 < twoPow 160 by decide) (show 0 < 1000 ∧ 1000 < twoPow 128 by decide)
    100 .one).2 _ hrise
  exact ⟨⟨⟨hinput, hcosts _ hinput⟩, hfall, hmoved, habove, hnearest _ habove nofun⟩,
    hrise, htwice, hnearestAbove _ htwice fun _ ↦ by decide⟩

/-- The output that takes the price one up to 10 / 9 also lies between one and 10 / 11, which is
nearer. -/
theorem nearer_price_below :
    priceAfterOutput q96 1000 100 .one = .ok 88031291682515930659493278152 ∧
      GivesOut .zero q96 72025602285694852357767227578 1000 100 ∧
      Nat.dist q96 72025602285694852357767227578 < Nat.dist q96 88031291682515930659493278152 :=
  ⟨by decide +kernel, ⟨100, by decide +kernel, le_rfl⟩, by decide⟩

end RangeBook.Curve
