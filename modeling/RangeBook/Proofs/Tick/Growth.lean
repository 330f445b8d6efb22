import Mathlib
import RangeBook.Proofs.Quotient
import RangeBook.Tick.Boundary

/-!
# Growth on the sides of boundary ticks

The growth below a tick and the growth above it add up to all growth, on whatever side of the tick
the current one lies (`get_growthAbove`). So the growth inside a range is a difference of the growth
below its ends (`get_growthInside`), and the growth inside neighbouring ranges adds up. A current tick
that passes a boundary tick turns its snapshot round, which changes the growth below it no more than
any other move does (`growthBelow_cross`, `growthBelow_congr`). All of this is modulo `2 ^ 256`, and
it needs nothing of the snapshots that are kept (`growthInside_laws`).
-/

set_option autoImplicit false
set_option relaxedAutoImplicit false

namespace RangeBook.BoundaryTick

variable {tick current current' : ℤ}

theorem get_growthBelow (boundary : BoundaryTick) (tick current : ℤ) (growth : TokenPair Growth)
    (token : Token) :
    (boundary.growthBelow tick current growth).get token =
      if tick ≤ current then boundary.growthOutside.get token
      else growth.get token - boundary.growthOutside.get token := by
  rw [growthBelow]
  split
  · rfl
  · rw [TokenPair.get_zipWith]

/-- What did not grow below a tick grew above it. -/
theorem get_growthAbove (boundary : BoundaryTick) (tick current : ℤ) (growth : TokenPair Growth)
    (token : Token) :
    (boundary.growthAbove tick current growth).get token =
      growth.get token - (boundary.growthBelow tick current growth).get token := by
  rw [get_growthBelow, growthAbove]
  by_cases hside : tick ≤ current
  · rw [if_neg (not_lt.mpr hside), if_pos hside, TokenPair.get_zipWith]
  · rw [if_pos (not_le.mp hside), if_neg hside, sub_sub_cancel]

/-- The growth inside a range is the growth below its upper end less that below its lower end. -/
theorem get_growthInside (lowerTick : ℤ) (lower : BoundaryTick) (upperTick : ℤ)
    (upper : BoundaryTick) (current : ℤ) (growth : TokenPair Growth) (token : Token) :
    (growthInside lowerTick lower upperTick upper current growth).get token =
      (upper.growthBelow upperTick current growth).get token -
        (lower.growthBelow lowerTick current growth).get token := by
  rw [growthInside, TokenPair.get_zipWith, TokenPair.get_zipWith, get_growthAbove]
  ring

/-- A current tick that stays on its side of a tick sees the same growth below it. -/
theorem growthBelow_congr (boundary : BoundaryTick) (growth : TokenPair Growth)
    (hside : tick ≤ current ↔ tick ≤ current') :
    boundary.growthBelow tick current' growth = boundary.growthBelow tick current growth := by
  rw [growthBelow, growthBelow]
  simp only [hside]

/-- A current tick that passes a tick sees the same growth below it, once the tick is crossed. -/
theorem growthBelow_cross (boundary : BoundaryTick) (growth : TokenPair Growth)
    (hpasses : tick ≤ current ↔ current' < tick) :
    (boundary.cross growth).growthBelow tick current' growth =
      boundary.growthBelow tick current growth := by
  refine TokenPair.ext_get fun token ↦ ?_
  rw [get_growthBelow, get_growthBelow, cross, TokenPair.get_zipWith]
  by_cases hside : tick ≤ current
  · rw [if_pos hside, if_neg (not_le.mpr (hpasses.mp hside)), sub_sub_cancel]
  · rw [if_neg hside, if_pos (not_lt.mp fun hbelow ↦ hside (hpasses.mpr hbelow))]

/-- The growth inside the ranges below and above a tick adds up to that inside the range around it,
whatever the snapshots are and wherever the current tick lies. Where the current tick passes the tick
in between, in either direction, and stays on its side of the two others, none of the three changes if
the tick in between is crossed. -/
theorem growthInside_laws (lower middle upper : BoundaryTick) (lowerTick middleTick upperTick : ℤ)
    (growth : TokenPair Growth) :
    (∀ current,
      (growthInside lowerTick lower middleTick middle current growth).zipWith (· + ·)
          (growthInside middleTick middle upperTick upper current growth) =
        growthInside lowerTick lower upperTick upper current growth) ∧
    ∀ current current', (middleTick ≤ current ↔ current' < middleTick) →
      (lowerTick ≤ current ↔ lowerTick ≤ current') →
      (upperTick ≤ current ↔ upperTick ≤ current') →
      growthInside lowerTick lower middleTick (middle.cross growth) current' growth =
          growthInside lowerTick lower middleTick middle current growth ∧
        growthInside middleTick (middle.cross growth) upperTick upper current' growth =
          growthInside middleTick middle upperTick upper current growth ∧
        growthInside lowerTick lower upperTick upper current' growth =
          growthInside lowerTick lower upperTick upper current growth := by
  refine ⟨fun current ↦ TokenPair.ext_get fun token ↦ ?_,
    fun current current' hpasses hlower hupper ↦ ?_⟩
  · rw [TokenPair.get_zipWith, get_growthInside, get_growthInside, get_growthInside, add_comm,
      sub_add_sub_cancel]
  · have hcrossed := middle.growthBelow_cross growth hpasses
    have hbelow := lower.growthBelow_congr growth hlower
    have habove := upper.growthBelow_congr growth hupper
    refine ⟨TokenPair.ext_get fun token ↦ ?_, TokenPair.ext_get fun token ↦ ?_,
      TokenPair.ext_get fun token ↦ ?_⟩
    · rw [get_growthInside, get_growthInside, hcrossed, hbelow]
    · rw [get_growthInside, get_growthInside, hcrossed, habove]
    · rw [get_growthInside, get_growthInside, hbelow, habove]

/-- The current tick leaves the tick in between downwards. The snapshots exceed the growth, so that
the differences run through zero. -/
theorem growthInside_laws_leavingTick :
    growthInside (-60) ⟨5, 5, ⟨9, 0⟩⟩ 0 (cross ⟨7, -3, ⟨4, 8⟩⟩ ⟨3, 6⟩) (-1) ⟨3, 6⟩ =
        ⟨-5, 8⟩ ∧
      growthInside 0 (cross ⟨7, -3, ⟨4, 8⟩⟩ ⟨3, 6⟩) 60 ⟨2, -2, ⟨2, 1⟩⟩ (-1) ⟨3, 6⟩ =
        ⟨-3, -3⟩ ∧
      (⟨-5, 8⟩ : TokenPair Growth).zipWith (· + ·) ⟨-3, -3⟩ =
        growthInside (-60) ⟨5, 5, ⟨9, 0⟩⟩ 60 ⟨2, -2, ⟨2, 1⟩⟩ (-1) ⟨3, 6⟩ := by
  obtain ⟨hadds, hpasses⟩ := growthInside_laws ⟨5, 5, ⟨9, 0⟩⟩ ⟨7, -3, ⟨4, 8⟩⟩ ⟨2, -2, ⟨2, 1⟩⟩
    (-60) 0 60 ⟨3, 6⟩
  obtain ⟨hbelow, habove, haround⟩ := hpasses 0 (-1) (by decide) (by decide) (by decide)
  have hbelowAt : growthInside (-60) ⟨5, 5, ⟨9, 0⟩⟩ 0 ⟨7, -3, ⟨4, 8⟩⟩ 0 ⟨3, 6⟩ = ⟨-5, 8⟩ := by
    decide
  have haboveAt : growthInside 0 ⟨7, -3, ⟨4, 8⟩⟩ 60 ⟨2, -2, ⟨2, 1⟩⟩ 0 ⟨3, 6⟩ = ⟨-3, -3⟩ := by
    decide
  refine ⟨hbelow.trans hbelowAt, habove.trans haboveAt, ?_⟩
  rw [haround, ← hadds, hbelowAt, haboveAt]

end RangeBook.BoundaryTick
