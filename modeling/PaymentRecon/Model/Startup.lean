import PaymentRecon.Model.Worker

/-!
# Startup — seeding the pool and rebuilding it from the PENDING intents

`AmountSeeder` of `db/redis_db.py`, `get_all_pending_orders` of `order/service.py` and the part of
`lifespan` of `main.py` before the application serves requests.
-/

namespace PaymentRecon

open Interleave

/-- `str(i) for i in range(start, end + 1)`. -/
def amountRange (start stop : Amount) : List Amount :=
  (List.range (stop + 1 - start).toNat).map fun (k : ℕ) => start + k

/-- The slices `xs[i : i + batch]` for `i` in `range(0, len(xs), batch)`. -/
def batches (xs : List Amount) (batch : ℕ) : List (List Amount) :=
  (List.range ((xs.length + batch - 1) / batch)).map fun k => (xs.drop (k * batch)).take batch

def isExistRangeAmount (start stop : Amount) (batch : ℕ) : App Unit := do
  let existing ← await (.exists .amounts)
  if existing then pure ()
  else
    Prog.forEach (fun batchRange => await (.sadd .amounts batchRange))
      (batches (amountRange start stop) batch)

/-- The loop over the pages of PENDING intents, and what it leaves in the buffer. -/
def addPendingOrders (limit redisBuffer : ℕ) : ℕ → Id → List Amount → App (List Amount)
  | 0, _, buffer => do
    await .outOfFuel
    pure buffer
  | fuel + 1, lastOrder, buffer => do
    let orders ← await (.pendingPage lastOrder limit)
    match orders.getLast? with
    | none => pure buffer
    | some last =>
      let buffer := buffer ++ orders.map (·.exactAmount)
      if redisBuffer ≤ buffer.length then do
        await (.sadd .pendingOrders buffer)
        addPendingOrders limit redisBuffer fuel last.id []
      else addPendingOrders limit redisBuffer fuel last.id buffer

/-- The rebuild of `pending_orders` and `free_amounts`. -/
def rebuildPool (limit redisBuffer fuel : ℕ) : App Unit := do
  await (.del .pendingOrders)
  let buffer ← addPendingOrders limit redisBuffer fuel 0 []
  if buffer ≠ [] then await (.sadd .pendingOrders buffer)
  await (.sdiffstore .freeAmounts .amounts .pendingOrders)

def lifespan (fuel : ℕ) : App Response := do
  isExistRangeAmount 1500000 1550000 10000
  rebuildPool 100 1000 fuel
  pure .started

end PaymentRecon
