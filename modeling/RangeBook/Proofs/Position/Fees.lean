import Mathlib
import RangeBook.Proofs.Pool.Poke

/-!
# Fees credited in one step or in two

An update of a position credits the fees for the growth since the one before, on the liquidity that
the position held in between (`credited_of_adjusted`). The growth is a difference modulo `2 ^ 256`, and
the amount owed is kept modulo `2 ^ 128`, but the fees themselves are exact as long as they fit. Each
update rounds them down. So a poke on the way to a later update gains nothing, and at most one unit
is lost by it (`poke_on_the_way`).
-/

set_option autoImplicit false
set_option relaxedAutoImplicit false

namespace RangeBook

/-- The growth inside a range after it went up by some more, modulo `2 ^ 256`. -/
def TokenPair.grownBy (inside more : TokenPair Growth) : TokenPair Growth :=
  inside.zipWith (· + ·) more

namespace Position

variable {position after first second : Position} {delta : ℤ} {inside growth growth' : TokenPair Growth}
  {token : Token}

/-! ### Credits -/

/-- What an update credited to the owner: the rise of the amount owed, which is kept modulo
`2 ^ 128`. -/
def credited (before after : Position) (token : Token) : ℤ :=
  ((after.owed.get token : ℤ) - before.owed.get token) % twoPow 128

/-- An update credits the fees for the growth, on the liquidity held before it, modulo `2 ^ 128`. -/
theorem credited_of_adjusted (h : position.AdjustedTo delta inside after) (token : Token) :
    position.credited after token = wrap128 (position.earned inside token) := by
  have howed : (after.owed.get token : ℤ) =
      (position.owed.get token + position.earned inside token) % twoPow 128 := by
    have hpoked := congrArg (fun changed : Position ↦ changed.owed.get token) h.eq_poked_with
    simp only [get_owed_poked, wrap128, Nat.add_mod_mod] at hpoked
    exact_mod_cast hpoked
  rw [credited, howed, Int.emod_sub_emod, add_sub_cancel_left, wrap128, Int.natCast_mod]

/-- An update finishes wherever the liquidity stays in its range, and a poke wherever there is some. -/
theorem exists_adjusted (hwidth : position.liquidity < twoPow 128)
    (hlow : 0 ≤ position.liquidity + delta) (hhigh : position.liquidity + delta < twoPow 128)
    (hheld : delta = 0 → 0 < position.liquidity) (inside : TokenPair Growth) :
    ∃ after, position.adjust delta inside = .ok after ∧ position.AdjustedTo delta inside after := by
  have hliquidity : FailsOnly (fun _ ↦ False) (position.liquidityAfter delta) := by
    refine .ite (fun hzero ↦ .bind (.require (absurd (hheld hzero))) fun _ _ ↦ .pure _) fun _ ↦ ?_
    have hsum : addDelta position.liquidity delta = .ok (position.liquidity + delta).toNat :=
      addDelta_eq_ok.mpr ⟨Int.toNat_of_nonneg hlow, by omega⟩
    exact .of_eq_ok hsum
  obtain ⟨after, hafter⟩ := (Pool.adjust_failsOnly hliquidity hwidth.le inside).exists_eq_ok
  exact ⟨after, hafter, adjusted_of_adjust hafter⟩

/-! ### Two updates and one -/

theorem grownBy_grownBy (inside growth growth' : TokenPair Growth) :
    (inside.grownBy growth).grownBy growth' = inside.grownBy (growth.zipWith (· + ·) growth') := by
  refine TokenPair.ext_get fun token ↦ ?_
  simp only [TokenPair.grownBy, TokenPair.get_zipWith, add_assoc]

theorem earned_grownBy (position : Position) (growth : TokenPair Growth) (token : Token) :
    position.earned (position.growthInside.grownBy growth) token =
      (growth.get token).toNat * position.liquidity / twoPow 128 := by
  rw [earned, TokenPair.grownBy, TokenPair.get_zipWith, add_sub_cancel_left]

theorem earned_grownBy_grownBy
    (hfits : (growth.get token).toNat + (growth'.get token).toNat < twoPow 256) :
    position.earned ((position.growthInside.grownBy growth).grownBy growth') token =
      ((growth.get token).toNat + (growth'.get token).toNat) * position.liquidity / twoPow 128 := by
  have hsum : (growth.get token + growth'.get token).toNat =
      (growth.get token).toNat + (growth'.get token).toNat := by
    rw [BitVec.toNat_add]
    exact Nat.mod_eq_of_lt hfits
  rw [grownBy_grownBy, earned_grownBy, TokenPair.get_zipWith, hsum]

/-- Two updates one after the other. Each credits the fees on what was held before it, and the second
starts from the liquidity and the growth that the first leaves behind. -/
theorem exists_adjusted_twice {delta' : ℤ} (hwidth : position.liquidity < twoPow 128)
    (hlow : 0 ≤ position.liquidity + delta) (hhigh : position.liquidity + delta < twoPow 128)
    (hheld : delta = 0 → 0 < position.liquidity)
    (hlow' : 0 ≤ position.liquidity + delta + delta')
    (hhigh' : position.liquidity + delta + delta' < twoPow 128)
    (hheld' : delta' = 0 → 0 < position.liquidity + delta) (growth growth' : TokenPair Growth) :
    ∃ first second,
      position.adjust delta (position.growthInside.grownBy growth) = .ok first ∧
      first.adjust delta' ((position.growthInside.grownBy growth).grownBy growth') = .ok second ∧
      (first.liquidity : ℤ) = position.liquidity + delta ∧
      (second.liquidity : ℤ) = position.liquidity + delta + delta' ∧
      second.growthInside = (position.growthInside.grownBy growth).grownBy growth' ∧
      ∀ token,
        position.credited first token =
          wrap128 ((growth.get token).toNat * position.liquidity / twoPow 128) ∧
        first.credited second token =
          wrap128 ((growth'.get token).toNat * first.liquidity / twoPow 128) := by
  obtain ⟨first, hfirst, hadjusted⟩ :=
    exists_adjusted hwidth hlow hhigh hheld (position.growthInside.grownBy growth)
  have hliquidity := hadjusted.liquidity_eq
  have hnext : ∃ second, first.adjust delta' (first.growthInside.grownBy growth') = .ok second ∧
      first.AdjustedTo delta' (first.growthInside.grownBy growth') second :=
    exists_adjusted (by omega) (by omega) (by omega) (by omega) _
  obtain ⟨second, hsecond, hadjusted'⟩ := hnext
  refine ⟨first, second, hfirst, hadjusted.growthInside_eq ▸ hsecond, hliquidity, ?_, ?_,
    fun token ↦ ⟨?_, ?_⟩⟩
  · rw [hadjusted'.liquidity_eq, hliquidity]
  · rw [hadjusted'.growthInside_eq, hadjusted.growthInside_eq]
  · rw [credited_of_adjusted hadjusted, earned_grownBy]
  · rw [credited_of_adjusted hadjusted', earned_grownBy]

/-- Rounded down twice, fees are no more than fees rounded down once, and at most one unit less. -/
theorem fees_add_fees_le_and_le (growth growth' liquidity : ℕ) :
    growth * liquidity / twoPow 128 + growth' * liquidity / twoPow 128 ≤
        (growth + growth') * liquidity / twoPow 128 ∧
      (growth + growth') * liquidity / twoPow 128 ≤
        growth * liquidity / twoPow 128 + growth' * liquidity / twoPow 128 + 1 := by
  rw [add_mul, Nat.add_div (twoPow_pos 128)]
  split_ifs <;> omega

/-- What is credited over two updates is the sum of what each of them credits, modulo `2 ^ 128`. -/
theorem credited_trans (position first second : Position) (token : Token) :
    position.credited second token =
      (position.credited first token + first.credited second token) % twoPow 128 := by
  rw [credited, credited, credited, ← Int.add_emod]
  congr 1
  ring

/-- On the same liquidity, two updates credit in sum no more than one update for all of the growth,
and at most one unit less, as long as the fees for all of it fit. -/
theorem credited_twice_bounds {once : Position} {grown grown' liquidity : ℕ}
    (hfees : (grown + grown') * liquidity / twoPow 128 < twoPow 128)
    (hfirst : position.credited first token = wrap128 (grown * liquidity / twoPow 128))
    (hsecond : first.credited second token = wrap128 (grown' * liquidity / twoPow 128))
    (honce : position.credited once token =
      wrap128 ((grown + grown') * liquidity / twoPow 128)) :
    position.credited second token =
        position.credited first token + first.credited second token ∧
      position.credited second token ≤ position.credited once token ∧
      position.credited once token - 1 ≤ position.credited second token := by
  obtain ⟨hle, hge⟩ := fees_add_fees_le_and_le grown grown' liquidity
  rw [wrap128_of_lt (((Nat.le_add_right _ _).trans hle).trans_lt hfees)] at hfirst
  rw [wrap128_of_lt (((Nat.le_add_left _ _).trans hle).trans_lt hfees)] at hsecond
  rw [wrap128_of_lt hfees] at honce
  have hsum : position.credited second token =
      position.credited first token + first.credited second token := by
    rw [credited_trans position first second, hfirst, hsecond]
    exact Int.emod_eq_of_lt (by positivity) (by omega)
  exact ⟨hsum, by omega, by omega⟩

/-- A poke on the way to an update gains nothing and loses at most one unit of each token, and it
leaves no other trace: the update after it ends with the same liquidity and the same growth as the
update alone. When liquidity changes as well, in either update, the fees that an update credits are
those on the liquidity held before it. -/
theorem poke_on_the_way {final : TokenPair Growth} (hheld : 0 < position.liquidity)
    (hwidth : position.liquidity < twoPow 128)
    (hinside : inside = position.growthInside.grownBy growth)
    (hfinal : final = inside.grownBy growth')
    (hfits : ∀ token, (growth.get token).toNat + (growth'.get token).toNat < twoPow 256)
    (hfees : ∀ token, ((growth.get token).toNat + (growth'.get token).toNat) * position.liquidity /
      twoPow 128 < twoPow 128) :
    (∀ delta : ℤ, 0 ≤ position.liquidity + delta → position.liquidity + delta < twoPow 128 →
      ∃ first second once,
        position.adjust 0 inside = .ok first ∧ first.adjust delta final = .ok second ∧
        position.adjust delta final = .ok once ∧
        second.liquidity = once.liquidity ∧ second.growthInside = once.growthInside ∧
        ∀ token,
          position.credited second token =
            position.credited first token + first.credited second token ∧
          position.credited second token ≤ position.credited once token ∧
          position.credited once token - 1 ≤ position.credited second token) ∧
    ∀ delta delta' : ℤ, 0 ≤ position.liquidity + delta →
      position.liquidity + delta < twoPow 128 → 0 ≤ position.liquidity + delta + delta' →
      position.liquidity + delta + delta' < twoPow 128 →
      (delta' = 0 → 0 < position.liquidity + delta) →
      ∃ first second,
        position.adjust delta inside = .ok first ∧ first.adjust delta' final = .ok second ∧
        (first.liquidity : ℤ) = position.liquidity + delta ∧
        (second.liquidity : ℤ) = position.liquidity + delta + delta' ∧
        second.growthInside = final ∧
        ∀ token,
          position.credited first token =
            ((growth.get token).toNat * position.liquidity / twoPow 128 : ℕ) ∧
          first.credited second token =
            wrap128 ((growth'.get token).toNat * first.liquidity / twoPow 128) := by
  subst hinside hfinal
  refine ⟨fun delta hlow hhigh ↦ ?_, fun delta delta' hlow hhigh hlow' hhigh' hheld' ↦ ?_⟩
  · obtain ⟨first, second, hfirst, hsecond, hliquidity, hliquidity', hgrowth, hcredits⟩ :=
      exists_adjusted_twice hwidth (by omega) (by omega) (fun _ ↦ hheld)
        (by omega : 0 ≤ position.liquidity + 0 + delta) (by omega) (by omega) growth growth'
    obtain ⟨once, honce, hadjusted⟩ := exists_adjusted hwidth hlow hhigh (fun _ ↦ hheld)
      ((position.growthInside.grownBy growth).grownBy growth')
    have hsame : first.liquidity = position.liquidity := by omega
    refine ⟨first, second, once, hfirst, hsecond, honce, ?_, ?_, fun token ↦ ?_⟩
    · have hadded := hadjusted.liquidity_eq
      omega
    · rw [hgrowth, hadjusted.growthInside_eq]
    · obtain ⟨hcredit, hcredit'⟩ := hcredits token
      rw [hsame] at hcredit'
      refine credited_twice_bounds (hfees token) hcredit hcredit' ?_
      rw [credited_of_adjusted hadjusted, earned_grownBy_grownBy (hfits token)]
  · obtain ⟨first, second, hfirst, hsecond, hliquidity, hliquidity', hgrowth, hcredits⟩ :=
      exists_adjusted_twice hwidth hlow hhigh (fun _ ↦ hheld) hlow' hhigh' hheld' growth growth'
    refine ⟨first, second, hfirst, hsecond, hliquidity, hliquidity', hgrowth, fun token ↦ ?_⟩
    obtain ⟨hcredit, hcredit'⟩ := hcredits token
    -- the fees up to the first update are part of those up to the second, so they fit as well
    have hfirstFits : (growth.get token).toNat * position.liquidity / twoPow 128 < twoPow 128 :=
      (Nat.div_le_div_right (Nat.mul_le_mul_right _ (Nat.le_add_right _ _))).trans_lt (hfees token)
    exact ⟨by rw [hcredit, wrap128_of_lt hfirstFits], hcredit'⟩

/-- A liquidity of `2 ^ 127` earns one unit and a half twice, and the growth of token zero passes
`2 ^ 256` meanwhile. A poke in between loses one of the three units earned. When half as much
liquidity joins in between instead, it has its part in the second earnings only. -/
theorem poke_on_the_way_halves :
    (∃ first second once,
      (⟨twoPow 127, ⟨-1, 7⟩, ⟨twoPow 128 - 1, 0⟩⟩ : Position).adjust 0 ⟨2, 10⟩ = .ok first ∧
      first.adjust 0 ⟨5, 13⟩ = .ok second ∧
      (⟨twoPow 127, ⟨-1, 7⟩, ⟨twoPow 128 - 1, 0⟩⟩ : Position).adjust 0 ⟨5, 13⟩ = .ok once ∧
      second.owed = ⟨1, 2⟩ ∧ once.owed = ⟨2, 3⟩ ∧
      (⟨twoPow 127, ⟨-1, 7⟩, ⟨twoPow 128 - 1, 0⟩⟩ : Position).credited once .zero - 1 ≤
        (⟨twoPow 127, ⟨-1, 7⟩, ⟨twoPow 128 - 1, 0⟩⟩ : Position).credited second .zero) ∧
    ∃ first second,
      (⟨twoPow 127, ⟨-1, 7⟩, ⟨twoPow 128 - 1, 0⟩⟩ : Position).adjust (twoPow 126) ⟨2, 10⟩ =
        .ok first ∧
      first.adjust (-twoPow 125) ⟨5, 13⟩ = .ok second ∧
      (⟨twoPow 127, ⟨-1, 7⟩, ⟨twoPow 128 - 1, 0⟩⟩ : Position).credited first .zero = 1 ∧
      first.credited second .zero = 2 := by
  obtain ⟨hpoked, hchanged⟩ := @poke_on_the_way ⟨twoPow 127, ⟨-1, 7⟩, ⟨twoPow 128 - 1, 0⟩⟩
    ⟨2, 10⟩ ⟨3, 3⟩ ⟨3, 3⟩ ⟨5, 13⟩ (by decide) (by decide) (by decide) (by decide)
    (by rintro (_ | _) <;> decide) (by rintro (_ | _) <;> decide)
  obtain ⟨first, second, once, hfirst, hsecond, honce, -, -, hcredits⟩ :=
    hpoked 0 (by decide) (by decide)
  refine ⟨⟨first, second, once, hfirst, hsecond, honce, ?_, ?_, (hcredits .zero).2.2⟩, ?_⟩
  · have htwice : (⟨twoPow 127, ⟨-1, 7⟩, ⟨twoPow 128 - 1, 0⟩⟩ : Position).adjust 0 ⟨2, 10⟩ =
      .ok ⟨twoPow 127, ⟨2, 10⟩, ⟨0, 1⟩⟩ := by decide
    obtain rfl := Except.ok.inj (htwice.symm.trans hfirst)
    have hlast : (⟨twoPow 127, ⟨2, 10⟩, ⟨0, 1⟩⟩ : Position).adjust 0 ⟨5, 13⟩ =
      .ok ⟨twoPow 127, ⟨5, 13⟩, ⟨1, 2⟩⟩ := by decide
    rw [← Except.ok.inj (hlast.symm.trans hsecond)]
  · have halone : (⟨twoPow 127, ⟨-1, 7⟩, ⟨twoPow 128 - 1, 0⟩⟩ : Position).adjust 0 ⟨5, 13⟩ =
      .ok ⟨twoPow 127, ⟨5, 13⟩, ⟨2, 3⟩⟩ := by decide
    rw [← Except.ok.inj (halone.symm.trans honce)]
  · obtain ⟨first, second, hfirst, hsecond, hliquidity, -, -, hcredits⟩ :=
      hchanged (twoPow 126) (-twoPow 125) (by decide) (by decide) (by decide) (by decide)
        (by decide)
    have hheld : first.liquidity = twoPow 127 + twoPow 126 := by exact_mod_cast hliquidity
    obtain ⟨hcredit, hcredit'⟩ := hcredits .zero
    rw [hheld] at hcredit'
    exact ⟨first, second, hfirst, hsecond, hcredit.trans (by decide), hcredit'.trans (by decide)⟩

end Position

end RangeBook
