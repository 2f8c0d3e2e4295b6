import Mathlib.Data.Nat.Notation
import Mathlib.Tactic.Common

/-!
# Gap detection for depth diffs

A depth diff carries the first and the last update id it spans, and the last id of the diff before
it. `LocalOrderBook` follows the ids only: the first diff after a snapshot has to span the id that
comes next, and every later one has to start where the one before it ended. The price levels are
emitted elsewhere.
-/

namespace Coinext.Binance

/-- The ids of one depth diff. -/
structure DepthUpdate where
  firstUpdateId : ℕ
  lastUpdateId : ℕ
  /-- The last id of the diff before; the legacy partial-depth stream omits it. -/
  prevUpdateId : Option ℕ
deriving DecidableEq

inductive ApplyOutcome where
  | applied
  /-- The diff is older than what was applied. -/
  | skipped
  /-- There is a gap. -/
  | resync
deriving DecidableEq

/-- Does the first diff after a snapshot bridge it? -/
def checkFirst (update : DepthUpdate) (snapshotLastId : ℕ) : Bool :=
  update.firstUpdateId ≤ snapshotLastId + 1 ∧ snapshotLastId + 1 ≤ update.lastUpdateId

/-- Does a later diff continue the one before it? -/
def checkNext (update : DepthUpdate) (prevLastId : ℕ) : Bool :=
  match update.prevUpdateId with
  | some pu => pu = prevLastId
  | none => update.firstUpdateId = prevLastId + 1

structure LocalOrderBook where
  /-- The last id of the last applied diff, or that of the snapshot. -/
  lastUpdateId : ℕ
  /-- A snapshot has been installed and bridged. -/
  synced : Bool
deriving DecidableEq

namespace LocalOrderBook

def new : LocalOrderBook := ⟨0, false⟩

def installSnapshot (_book : LocalOrderBook) (snapshotLastId : ℕ) : LocalOrderBook :=
  ⟨snapshotLastId, false⟩

def applyDiff (book : LocalOrderBook) (update : DepthUpdate) : ApplyOutcome × LocalOrderBook :=
  if update.lastUpdateId ≤ book.lastUpdateId then (.skipped, book)
  else if book.synced then
    if checkNext update book.lastUpdateId then
      (.applied, { book with lastUpdateId := update.lastUpdateId })
    else (.resync, { book with synced := false })
  else
    if checkFirst update book.lastUpdateId then (.applied, ⟨update.lastUpdateId, true⟩)
    else (.resync, book)

theorem applyDiff_of_synced (last : ℕ) (update : DepthUpdate) :
    applyDiff ⟨last, true⟩ update
      = if update.lastUpdateId ≤ last then (.skipped, ⟨last, true⟩)
        else if checkNext update last then (.applied, ⟨update.lastUpdateId, true⟩)
        else (.resync, ⟨last, false⟩) := rfl

theorem applyDiff_of_not_synced (last : ℕ) (update : DepthUpdate) :
    applyDiff ⟨last, false⟩ update
      = if update.lastUpdateId ≤ last then (.skipped, ⟨last, false⟩)
        else if checkFirst update last then (.applied, ⟨update.lastUpdateId, true⟩)
        else (.resync, ⟨last, false⟩) := rfl

end LocalOrderBook

end Coinext.Binance
