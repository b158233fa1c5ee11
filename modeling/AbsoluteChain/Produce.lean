import AbsoluteChain.Blockchain

/-!
# Blocks of one's own

`create_block` selects transactions by validation against the stored state; nothing is
executed before `add_block`.
-/

namespace AbsoluteChain

open Python Transactions

namespace Blockchain

variable (c : Blockchain) (nodeVersion : String) (now : Int)

def validateTxForBlock (t : Tables) (nonceCursor : Dict String Int) (tx : Transaction) : Except String Unit := do
  let expected := (nonceCursor.get? tx.fromAddr).getD (t.getNonce tx.fromAddr)
  require (tx.nonce = expected) "nonce_mismatch_in_block"
  c.validateTransaction t tx

def appliedTxs (t : Tables) : Dict String Int → List Transaction → List Transaction
  | _, [] => []
  | nonceCursor, tx :: rest =>
    match c.validateTxForBlock t nonceCursor tx with
    | .ok _ => tx :: appliedTxs t (nonceCursor.set tx.fromAddr (tx.nonce + 1)) rest
    | .error _ => appliedTxs t nonceCursor rest

def createBlock (transactions : List Transaction) (proposer : String) (t : Tables) : Block :=
  let last := t.getLastBlock
  let parentTs := (last.map BlockDict.timestamp).getD 0
  Block.init now
    { height := (last.map fun b => b.height + 1).getD 1, parentHash := (last.map BlockDict.hash).getD genesisHash,
      miner := proposer, transactions := c.appliedTxs t [] transactions, timestamp := max now (parentTs + 1), blockHash := "",
      extraData := "v" ++ nodeVersion, stateRoot := "" }

end Blockchain

end AbsoluteChain
