import RangeBook.Factory
import RangeBook.Pool.Limit
import RangeBook.Pool.Range
import RangeBook.Pool.Swap
import RangeBook.Proofs.Action
import RangeBook.Proofs.Book.Claims
import RangeBook.Proofs.Book.Fill
import RangeBook.Proofs.Book.Independence
import RangeBook.Proofs.Book.Resettling
import RangeBook.Proofs.Book.Stock
import RangeBook.Proofs.Curve
import RangeBook.Proofs.Curve.Amount
import RangeBook.Proofs.Curve.Inverse
import RangeBook.Proofs.Factory
import RangeBook.Proofs.Fee
import RangeBook.Proofs.Pool.Batches
import RangeBook.Proofs.Pool.Bookkeeping
import RangeBook.Proofs.Pool.Crossings
import RangeBook.Proofs.Pool.ExactOutput
import RangeBook.Proofs.Pool.FeeDistribution
import RangeBook.Proofs.Pool.GrowthInside
import RangeBook.Proofs.Pool.LiquidityCap
import RangeBook.Proofs.Pool.LiquidityLaws
import RangeBook.Proofs.Pool.OrderBacking
import RangeBook.Proofs.Pool.OrderExit
import RangeBook.Proofs.Pool.OrderIndependence
import RangeBook.Proofs.Pool.OrderLiabilities
import RangeBook.Proofs.Pool.OrderSolvency
import RangeBook.Proofs.Pool.PositionIndependence
import RangeBook.Proofs.Pool.PricePriority
import RangeBook.Proofs.Pool.PriceTick
import RangeBook.Proofs.Pool.ProtocolFees
import RangeBook.Proofs.Pool.ProtocolPart
import RangeBook.Proofs.Pool.SwapBack
import RangeBook.Proofs.Pool.SwapFinishes
import RangeBook.Proofs.Pool.SwapLength
import RangeBook.Proofs.Pool.SwapMonotone
import RangeBook.Proofs.Pool.SwapTerms
import RangeBook.Proofs.Pool.Withdrawal
import RangeBook.Proofs.Position.Fees
import RangeBook.Proofs.Share.Chain
import RangeBook.Proofs.Share.Portion
import RangeBook.Proofs.Share.RoundedUp
import RangeBook.Proofs.Share.Scaling
import RangeBook.Proofs.Swap.FillBounds
import RangeBook.Proofs.Swap.PartFill
import RangeBook.Proofs.Swap.RangeFees
import RangeBook.Proofs.Swap.StepBounds
import RangeBook.Proofs.Tick.Accuracy
import RangeBook.Proofs.Tick.Growth
import RangeBook.Proofs.Tick.Rounds
import RangeBook.Proofs.Word
import RangeBook.Word
