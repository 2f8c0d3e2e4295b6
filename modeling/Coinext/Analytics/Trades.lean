import Coinext.Model.Types
import Coinext.Support.Grouping

/-!
# Round trips from a log of fills

`stats_from_result` groups the rows of a result's fill log by symbol and matches every group first
in, first out: a fill against the open direction closes the oldest lots, and each lot it closes is a
trade. What is left of the fill opens a lot of its own. Consecutive fills of one side and one price
count as one.

Quantities, prices and profits are the decimals of which the source holds binary floats. The
reductions of the list of trades to headline figures are left out.
-/

namespace Coinext

namespace Analytics

/-- A row of the fill log of a result. -/
abbrev LogRow := UnixNanos × Symbol × ℤ × Decimal × Decimal

/-- A fill as the analytics sees it; the side is `+1` for a buy and `-1` for a sell. -/
structure Fill where
  ts : UnixNanos
  side : ℤ
  qty : Decimal
  px : Decimal
deriving DecidableEq

/-- A closed round trip; `side` is the direction of the position. -/
structure Trade where
  entryTs : UnixNanos
  exitTs : UnixNanos
  side : ℤ
  qty : Decimal
  entryPx : Decimal
  exitPx : Decimal
  pnl : Decimal
  returnPct : Decimal
deriving DecidableEq

/-- An open lot. -/
structure Lot where
  ts : UnixNanos
  qty : Decimal
  px : Decimal
  dir : ℤ
deriving DecidableEq

/-- Quantities up to this count as closed. -/
def qtyEps : Decimal := 1 / 10 ^ 12

/-- Merge consecutive fills of one side and one price; the first time stays. -/
def coalescePartialFills (fills : List Fill) : List Fill :=
  fills.foldl (fun out f ↦ match out.getLast? with
    | some p =>
      if p.side = f.side ∧ p.px = f.px then out.dropLast ++ [{ p with qty := p.qty + f.qty }]
      else out ++ [f]
    | none => [f]) []

variable (feeRate : Decimal)

/-- The trade in which a fill closes `matched` of a lot. -/
def matchLot (f : Fill) (lot : Lot) (matched : Decimal) : Trade :=
  let gross := (f.px - lot.px) * matched * lot.dir
  let fees := (lot.px + f.px) * matched * feeRate
  let pnl := gross - fees
  let notional := lot.px * matched
  { entryTs := lot.ts
    exitTs := f.ts
    side := lot.dir
    qty := matched
    entryPx := lot.px
    exitPx := f.px
    pnl := pnl
    returnPct := if notional = 0 then 0 else pnl / notional }

/-- Close opposing lots, the oldest first: the trades, what is left of the fill, and the lots that
stay open. -/
def closeLots (f : Fill) : Decimal → List Lot → List Trade × Decimal × List Lot
  | remaining, [] => ([], remaining, [])
  | remaining, lot :: lots =>
    if lot.dir = -f.side ∧ remaining > qtyEps then
      let matched := min lot.qty remaining
      let trade := matchLot feeRate f lot matched
      if lot.qty - matched ≤ qtyEps then
        let rest := closeLots f (remaining - matched) lots
        (trade :: rest.1, rest.2)
      -- such a lot has taken all of the fill, so the loop ends here
      else ([trade], remaining - matched, { lot with qty := lot.qty - matched } :: lots)
    else ([], remaining, lot :: lots)

/-- Match one fill against the open lots; what is left of it opens a lot. -/
def matchFill (s : List Lot × List Trade) (f : Fill) : List Lot × List Trade :=
  let (closed, remaining, lots) := closeLots feeRate f f.qty s.1
  (if remaining > qtyEps then lots ++ [⟨f.ts, remaining, f.px, f.side⟩] else lots, s.2 ++ closed)

/-- Fold a stream of fills into closed round trips. -/
def reconstructTrades (fills : List Fill) : List Trade :=
  ((coalescePartialFills fills).foldl (matchFill feeRate) ([], [])).2

/-- The closed trades that `stats_from_result` reduces. -/
def closedTrades (fillsLog : List LogRow) : List Trade :=
  let bySymbol := groups (fun row : LogRow ↦ row.2.1)
    (fun row ↦ (⟨row.1, row.2.2.1, row.2.2.2.1, row.2.2.2.2⟩ : Fill)) fillsLog
  bySymbol.flatMap fun group ↦ reconstructTrades feeRate group.2

variable {feeRate}

/-- A lot that stays open has taken all that was left of the fill, so a further turn of the loop
would do nothing. -/
theorem closeLots_of_lot_left {f : Fill} {remaining : Decimal} {lot : Lot} {lots : List Lot}
    (hopposes : lot.dir = -f.side ∧ remaining > qtyEps)
    (hleft : ¬ lot.qty - min lot.qty remaining ≤ qtyEps) :
    (closeLots feeRate f remaining (lot :: lots)).2.1 = 0 := by
  have hlt : remaining < lot.qty := by
    by_contra hge
    rw [min_eq_left (not_lt.mp hge), sub_self] at hleft
    exact hleft (by norm_num [qtyEps])
  have hclose : (closeLots feeRate f remaining (lot :: lots)).2.1
      = remaining - min lot.qty remaining := by
    simp only [closeLots, if_pos hopposes, if_neg hleft]
  rw [hclose, min_eq_right hlt.le, sub_self]

end Analytics

end Coinext
