import Anthemius.SchedulerPlan

/-!
# Transaction registers

Transactions with gas estimates and a hint graph, as they travel from the block filler to the
scheduler.
-/
namespace Anthemius

structure TransactionRegister (T : Type) where
  txns : List T
  gasEstimates : List ℕ
  dependencyGraph : List (List TxnIndex)
  deriving DecidableEq

namespace TransactionRegister
variable {T : Type}

def empty : TransactionRegister T := ⟨[], [], []⟩

/-- The conversion of a plain list: no estimates, and hints from all but the outermost
transactions to the first. -/
def ofTxns (txns : List T) : TransactionRegister T where
  txns := txns
  gasEstimates := txns.map fun _ => 0
  dependencyGraph := (List.range txns.length).map fun i =>
    if i = 0 ∨ i = txns.length - 1 then [] else [0]

end TransactionRegister
end Anthemius
