import Coinext.Engine.Ledger

/-!
# The daily price limit
-/

namespace Coinext

namespace ExecutionEngine

/-- A violation is reported with the band around the previous close. -/
theorem violation_cases {cache : Cache} {ledger : ExecLedger} {inst : Instrument} {order : Order}
    {now : UnixNanos} {reason : Reason}
    (h : (priceLimitViolation cache ledger inst order now).1 = some reason) :
    ∃ prev refPx, prevCloseFor (observeMark cache ledger order.instrumentId now)
        order.instrumentId (dayKeyForInst inst now) = some prev
      ∧ reason = .priceLimit refPx
        (roundCents (prev * (1 - priceLimitPct order.instrumentId.symbol)))
        (roundCents (prev * (1 + priceLimitPct order.instrumentId.symbol))) prev
        (priceLimitPct order.instrumentId.symbol) := by
  unfold priceLimitViolation at h
  split_ifs at h
  obtain ⟨prev, hprev, h⟩ := Option.bind_eq_some_iff.mp h
  simp only at h
  split at h
  all_goals
    obtain ⟨refPx, -, h⟩ := Option.bind_eq_some_iff.mp h
    split_ifs at h
    exact ⟨prev, refPx, hprev, (Option.some.inj h).symm⟩

end ExecutionEngine

end Coinext
