import Coinext.Model.Order

/-!
# Commands and reports

The values that cross the ports: execution reports, strategy commands, and what the pre-trade risk
gate answers and is configured with.
-/

namespace Coinext

/-- Normalized execution outcome emitted by any execution client. -/
inductive ExecutionReport where
  | accepted (clientOrderId : ClientOrderId) (venueOrderId : VenueOrderId)
  | pendingUpdate (clientOrderId : ClientOrderId)
  | modified (clientOrderId : ClientOrderId) (quantity : Option Quantity) (price : Option Price)
  | pendingCancel (clientOrderId : ClientOrderId)
  | fill (f : Fill)
  | rejected (clientOrderId : ClientOrderId) (reason : Reason)
  | canceled (clientOrderId : ClientOrderId)
  | expired (clientOrderId : ClientOrderId)
deriving DecidableEq

namespace ExecutionReport

def clientOrderId : ExecutionReport → ClientOrderId
  | accepted id _ | pendingUpdate id | modified id _ _ | pendingCancel id | rejected id _
  | canceled id | expired id => id
  | fill f => f.clientOrderId

def isAccepted : ExecutionReport → Bool
  | accepted .. => true
  | _ => false

/-- The fill a report carries. -/
def fill? : ExecutionReport → Option Fill
  | fill f => some f
  | _ => none

@[simp] theorem filterMap_map_fill (fills : List Fill) :
    (fills.map fill).filterMap fill? = fills := by
  rw [List.filterMap_map]
  exact List.filterMap_some

end ExecutionReport

/-- What a strategy emits through its context. -/
inductive StrategyCommand where
  | submit (order : Order)
  | cancel (clientOrderId : ClientOrderId)
  | modify (clientOrderId : ClientOrderId) (quantity : Option Quantity) (price : Option Price)
deriving DecidableEq

inductive DenyReason where
  | maxPositionExceeded | maxGrossExposureExceeded | maxOrderNotional | orderRateThrottled
  | minNotional | killSwitchEngaged | instrumentHalted | insufficientMargin | tPlusOne | priceLimit
deriving DecidableEq

/-- The name a denial prints. -/
def DenyReason.display : DenyReason → String
  | .maxPositionExceeded => "MaxPositionExceeded"
  | .maxGrossExposureExceeded => "MaxGrossExposureExceeded"
  | .maxOrderNotional => "MaxOrderNotional"
  | .orderRateThrottled => "OrderRateThrottled"
  | .minNotional => "MinNotional"
  | .killSwitchEngaged => "KillSwitchEngaged"
  | .instrumentHalted => "InstrumentHalted"
  | .insufficientMargin => "InsufficientMargin"
  | .tPlusOne => "TPlusOne"
  | .priceLimit => "PriceLimit"

inductive RiskDecision where
  | approved
  | denied (reason : DenyReason)
deriving DecidableEq

/-- Pre-trade risk limits; the reserved ones, which nothing reads, are left out. -/
structure RiskLimits where
  maxPositionQty : Option Quantity := none
  maxOrderNotional : Option Money := none
  maxGrossExposure : Option Money := none
  leverage : Option Decimal := none
  maintenanceMarginRate : Option Decimal := none

/-- No limits. -/
def RiskLimits.unlimited : RiskLimits := {}

end Coinext
