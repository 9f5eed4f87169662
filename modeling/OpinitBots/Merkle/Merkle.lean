import OpinitBots.Merkle.Types
import Mathlib.Data.Nat.Size

/-! `merkle.go`: the Merkle tree that keeps only the last sibling of each level in memory.
Each method makes its store calls and changes the working tree in the order the Go code
does, so an error leaves behind exactly what the code leaves behind. uint64 arithmetic
is taken modulo 2^64 where it can wrap; `bits.Len64` is `Nat.size`. -/
namespace OpinitBots.Merkle

abbrev EmptyRootHash := Bytes

section

variable (nodeGeneratorFn : NodeGeneratorFn)

def validateNodeGeneratorFn (randInput1 randInput2 : Bytes) : Except MerkleError Unit :=
  if nodeGeneratorFn randInput1 randInput2 = nodeGeneratorFn randInput2 randInput1 then .ok ()
  else .error .notCommutative

def newMerkle (db : DB Value) (randInput1 randInput2 : Bytes) : Except MerkleError Merkle := do
  validateNodeGeneratorFn nodeGeneratorFn randInput1 randInput2
  return ⟨db, none⟩

def initializeWorkingTree (treeIndex startLeafIndex : Nat) : MerkleM Unit :=
  if treeIndex < 1 ∨ startLeafIndex < 1 then throw (.invalidIndex treeIndex startLeafIndex)
  else
    let workingTree : TreeInfo :=
      { index := treeIndex, startLeafIndex := startLeafIndex, leafCount := 0,
        lastSiblings := fun _ => none, done := false }
    modify fun m => { m with workingTree := some workingTree }

/-- The height `Height` computes from a leaf count. -/
def heightOf (leafCount : Nat) : Nat :=
  if leafCount ≤ 1 then leafCount else Nat.size (leafCount - 1)

def height : MerkleM Nat := do
  let wt ← getWorkingTree
  return heightOf wt.leafCount

def getWorkingTreeIndex : MerkleM Nat := do
  return (← getWorkingTree).index

def getWorkingTreeLeafCount : MerkleM Nat := do
  return (← getWorkingTree).leafCount

def getStartLeafIndex : MerkleM Nat := do
  return (← getWorkingTree).startLeafIndex

def saveNode (height localNodeIndex : Nat) (data : Bytes) : MerkleM Unit := do
  let workingTreeIndex ← getWorkingTreeIndex
  dbSet (prefixedNodeKey workingTreeIndex height localNodeIndex) (.raw data)

def getNode (treeIndex height localNodeIndex : Nat) : MerkleM Bytes := do
  return (← dbGet (prefixedNodeKey treeIndex height localNodeIndex)).toBytes

def getLastSibling (height : Nat) : MerkleM Bytes := fun m =>
  .ok ((m.workingTree.bind fun wt => wt.lastSiblings height).getD []) m

def setLastSibling (height : Nat) (data : Bytes) : MerkleM Unit :=
  modifyWorkingTree fun wt => { wt with lastSiblings := Function.update wt.lastSiblings height (some data) }

/-- The loop of `InsertLeaf`: save the node, swap it into the last siblings, and carry
the parent up while the node is a right child. -/
def insertLeafLoop (height localNodeIndex : Nat) (data : Bytes) : MerkleM Unit := do
  saveNode height localNodeIndex data
  let sibling ← getLastSibling height
  setLastSibling height data
  if even : localNodeIndex % 2 = 0 then return ()
  else insertLeafLoop (height + 1) (localNodeIndex / 2) (nodeGeneratorFn sibling data)
termination_by localNodeIndex
decreasing_by omega

def insertLeaf (data : Bytes) : MerkleM Unit := do
  let wt ← getWorkingTree
  insertLeafLoop nodeGeneratorFn 0 wt.leafCount data
  modifyWorkingTree fun wt => { wt with leafCount := (wt.leafCount + 1) % 2 ^ 64 }

def insertLeafTimes (data : Bytes) : Nat → MerkleM Unit
  | 0 => pure ()
  | n + 1 => do
    insertLeaf nodeGeneratorFn data
    insertLeafTimes data n

def fillLeaves : MerkleM Unit := do
  let wt ← getWorkingTree
  let height ← height
  let numRestLeaves := (2 ^ height % 2 ^ 64 + 2 ^ 64 - wt.leafCount) % 2 ^ 64
  if numRestLeaves = 0 then return ()
  let lastLeaf := (wt.lastSiblings 0).getD []
  insertLeafTimes nodeGeneratorFn lastLeaf numRestLeaves
  modifyWorkingTree fun wt =>
    { wt with leafCount := (wt.leafCount + 2 ^ 64 - numRestLeaves) % 2 ^ 64 }

variable (emptyRootHash : EmptyRootHash)

/-- `FinalizeWorkingTree`: the batch the caller must commit, and the root. -/
def finalizeWorkingTree (extraData : Bytes) : MerkleM (List (RawKV Value) × Bytes) := do
  let wt ← getWorkingTree
  modifyWorkingTree fun wt => { wt with done := true }
  if wt.leafCount = 0 then return ([], emptyRootHash)
  fillLeaves nodeGeneratorFn
  let height ← height
  let wt ← getWorkingTree
  let treeRootHash := (wt.lastSiblings height).getD []
  let finalizedTreeInfo : FinalizedTreeInfo :=
    { treeIndex := wt.index, treeHeight := height, root := treeRootHash,
      startLeafIndex := wt.startLeafIndex, leafCount := wt.leafCount, extraData := extraData }
  return ([⟨finalizedTreeInfo.key, some (.finalizedTreeInfo finalizedTreeInfo)⟩], treeRootHash)

end

/-- `PrefixedIterate` over the entries present when it starts, stopping when the
callback asks to or fails. -/
def iterate (fn : Bytes → Value → MerkleM Bool) : List (Bytes × Value) → MerkleM Unit
  | [] => pure ()
  | (key, value) :: rest => do
    if ← fn key value then return ()
    iterate fn rest

def prefixedIterate (pfx : Bytes) (fn : Bytes → Value → MerkleM Bool) : MerkleM Unit := do
  iterate fn (← dbPrefixed pfx)

def deleteFrom (cutoff : Nat) (key : Bytes) (_ : Value) : MerkleM Bool := do
  if toUint64Key (key.drop (key.length - 8)) ≥ cutoff then dbDelete key
  return false

def deleteFutureFinalizedTrees (fromSequence : Nat) : MerkleM Unit :=
  prefixedIterate finalizedTreeKey (deleteFrom fromSequence)

def deleteFutureWorkingTrees (fromVersion : Nat) : MerkleM Unit :=
  prefixedIterate workingTreeKey (deleteFrom fromVersion)

def loadWorkingTree (version : Nat) : MerkleM Unit := do
  let data ← dbGet (prefixedWorkingTreeKey version)
  let (workingTree, failed) := unmarshalTreeInfo data
  modify fun m => { m with workingTree := some workingTree }
  if failed then throw .decode
  if workingTree.done then
    initializeWorkingTree ((workingTree.index + 1) % 2 ^ 64)
      ((workingTree.startLeafIndex + workingTree.leafCount) % 2 ^ 64)

def saveWorkingTree (version : Nat) : MerkleM Unit := do
  let wt ← getWorkingTree
  dbSet (prefixedWorkingTreeKey version) (.treeInfo wt)

/-- `ErrNotFound` from the store read as `ErrUnfinalizedTree`. -/
def notFoundAsUnfinalized {α : Type} (x : MerkleM α) : MerkleM α := fun m =>
  match x m with
  | .error .notFound m' => .error .unfinalizedTree m'
  | r => r

/-- The loop of `GetProofs`: the sibling of the path node at each level, bottom-up. -/
def siblingProofs (treeIndex : Nat) : Nat → Nat → Nat → MerkleM (List Bytes)
  | 0, _, _ => pure []
  | k + 1, height, localNodeIndex => do
    let sibling ← getNode treeIndex height (localNodeIndex ^^^ 1)
    let proofs ← siblingProofs treeIndex k (height + 1) (localNodeIndex / 2)
    return sibling :: proofs

def getProofs (leafIndex : Nat) : MerkleM (List Bytes × Nat × Bytes × Bytes) := do
  let (_, value) ← notFoundAsUnfinalized
    (dbSeekPrevInclusiveKey finalizedTreeKey (prefixedFinalizedTreeKey leafIndex))
  let some treeInfo := unmarshalFinalizedTreeInfo value | throw .decode
  if leafIndex < treeInfo.startLeafIndex then
    throw (.leafNotFound leafIndex treeInfo.treeIndex)
  else if leafIndex - treeInfo.startLeafIndex ≥ treeInfo.leafCount then
    throw .unfinalizedTree
  let proofs ← siblingProofs treeInfo.treeIndex treeInfo.treeHeight 0
    (leafIndex - treeInfo.startLeafIndex)
  return (proofs, treeInfo.treeIndex, treeInfo.root, treeInfo.extraData)

end OpinitBots.Merkle
