import OpinitBots.Store

/-! The records, keys and errors of the Merkle engine (`merkletypes`, whose file is not
among the sources: its layout is taken from the spec's key schema), the engine's state,
and the calls it makes to its store. A call consults the store's fault schedule first. -/
namespace OpinitBots

abbrev NodeGeneratorFn := Bytes → Bytes → Bytes

/-- `merkletypes.TreeInfo`, the working tree. `LastSiblings` is a map from levels. -/
structure TreeInfo where
  index : Nat
  startLeafIndex : Nat
  leafCount : Nat
  lastSiblings : Nat → Option Bytes
  done : Bool

/-- `merkletypes.FinalizedTreeInfo`. -/
structure FinalizedTreeInfo where
  treeIndex : Nat
  treeHeight : Nat
  root : Bytes
  startLeafIndex : Nat
  leafCount : Nat
  extraData : Bytes
deriving DecidableEq

/-- What the engine's keys hold: node digests as raw bytes, tree records as the JSON
documents `json.Marshal` writes. A document is kept as the record it encodes, so decoding
what was encoded gives the record back. -/
inductive Value
  | raw (b : Bytes)
  | treeInfo (t : TreeInfo)
  | finalizedTreeInfo (f : FinalizedTreeInfo)

/-- The bytes a raw read returns. Only node keys are read raw, and the engine writes
nothing but digests there. -/
def Value.toBytes : Value → Bytes
  | .raw b => b
  | _ => []

/-- The zero `TreeInfo` that `json.Unmarshal` starts from. Go's `LastSiblings` is then a
nil map, which reads as the empty one. -/
def TreeInfo.zero : TreeInfo := ⟨0, 0, 0, fun _ => none, false⟩

/-- The bytes hold no JSON text: after JSON whitespace they end, or go on with a byte no JSON
value starts with (`{`, `[`, `"`, `-`, a digit, or the `t`, `f`, `n` of a literal). -/
def notJson : Bytes → Bool
  | [] => true
  | b :: rest =>
    if b = 32 ∨ b = 9 ∨ b = 10 ∨ b = 13 then notJson rest
    else !(b = 123 ∨ b = 91 ∨ b = 34 ∨ b = 45 ∨ (48 ≤ b ∧ b ≤ 57) ∨ b = 116 ∨ b = 102 ∨ b = 110)

/-- `json.Unmarshal` into a `TreeInfo`: the decoded record, and whether it failed. It follows
Go on the documents `SaveWorkingTree` writes, which decode to the record saved, and on bytes
that hold no JSON text (`notJson`): `json.Unmarshal` checks the syntax of its whole input
before it decodes, so these leave the zero record and an error. What Go makes of a JSON text
of another shape (fields decoded up to a mistyped one, unknown keys skipped) depends on the
JSON names of `merkletypes.TreeInfo`, which are not among the sources; the model gives the
zero record and an error there too, and no theorem reads that case. -/
def unmarshalTreeInfo : Value → TreeInfo × Bool
  | .treeInfo t => (t, false)
  | _ => (TreeInfo.zero, true)

@[simp]
theorem unmarshalTreeInfo_treeInfo (t : TreeInfo) : unmarshalTreeInfo (.treeInfo t) = (t, false) :=
  rfl

example : notJson [32, 120] = true ∧ notJson [32, 123, 125] = false := by decide

def unmarshalFinalizedTreeInfo : Value → Option FinalizedTreeInfo
  | .finalizedTreeInfo f => some f
  | _ => none

def ascii (s : String) : Bytes := s.toList.map fun c => UInt8.ofNat c.toNat

def workingTreeKey : Bytes := ascii "working_tree/"
def finalizedTreeKey : Bytes := ascii "finalized_tree/"
def nodeKey : Bytes := ascii "node/"

def prefixedWorkingTreeKey (version : Nat) : Bytes := workingTreeKey ++ fromUint64Key version

def prefixedFinalizedTreeKey (startLeafIndex : Nat) : Bytes :=
  finalizedTreeKey ++ fromUint64Key startLeafIndex

def prefixedNodeKey (treeIndex height localNodeIndex : Nat) : Bytes :=
  nodeKey ++ (fromUint64Key treeIndex ++ (UInt8.ofNat height :: fromUint64Key localNodeIndex))

theorem prefixedNodeKey_inj {t h h' j j' : Nat} (hh : h < 256) (hh' : h' < 256)
    (hj : j < 2 ^ 64) (hj' : j' < 2 ^ 64) :
    prefixedNodeKey t h j = prefixedNodeKey t h' j' ↔ h = h' ∧ j = j' := by
  simp only [prefixedNodeKey, List.append_cancel_left_eq, List.cons.injEq,
    fromUint64Key_inj hj hj', byte_ofNat_inj hh hh']

def FinalizedTreeInfo.key (f : FinalizedTreeInfo) : Bytes := prefixedFinalizedTreeKey f.startLeafIndex

/-- The engine's errors; `message` gives the text of those the source spells out. -/
inductive MerkleError
  | workingTreeNotInitialized
  | invalidIndex (treeIndex startLeafIndex : Nat)
  | leafNotFound (leafIndex treeIndex : Nat)
  | notCommutative
  | unfinalizedTree
  | notFound
  | store
  | decode
deriving DecidableEq

def MerkleError.message : MerkleError → String
  | .workingTreeNotInitialized => "working tree is not initialized"
  | .invalidIndex t s => s!"failed to initialize working tree index: {t}, leaf: {s}; invalid index"
  | .leafNotFound i t => s!"leaf ({i}) is not found in tree ({t})"
  | .notCommutative => "node generator function is not commutative"
  | .unfinalizedTree => "unfinalized tree"
  | .notFound => "not found"
  | .store => "store error"
  | .decode => "decode error"

/-- The engine: its store and its working tree. -/
structure Merkle where
  db : DB Value
  workingTree : Option TreeInfo

abbrev MerkleM := EStateM MerkleError Merkle

namespace Merkle

/-- One call to the store, failing with an I/O error when the fault schedule says so. -/
def dbCall {α : Type} (op : Store Value → Except MerkleError (α × Store Value)) : MerkleM α :=
  fun m =>
    if m.db.failing then .error .store { m with db := m.db.tick }
    else match op m.db.store with
      | .ok (a, s) => .ok a { m with db := ⟨s, m.db.faults.tail⟩ }
      | .error e => .error e { m with db := m.db.tick }

def dbGet (k : Bytes) : MerkleM Value :=
  dbCall fun s => match s.get k with
    | some v => .ok (v, s)
    | none => .error .notFound

def dbSet (k : Bytes) (v : Value) : MerkleM Unit := dbCall fun s => .ok ((), s.set k v)

def dbDelete (k : Bytes) : MerkleM Unit := dbCall fun s => .ok ((), s.delete k)

def dbSeekPrevInclusiveKey (pfx target : Bytes) : MerkleM (Bytes × Value) :=
  dbCall fun s => match s.seekPrevInclusiveKey pfx target with
    | some e => .ok (e, s)
    | none => .error .notFound

def dbPrefixed (pfx : Bytes) : MerkleM (List (Bytes × Value)) :=
  dbCall fun s => .ok (s.prefixed pfx, s)

def dbBatchSet (kvs : List (RawKV Value)) : MerkleM Unit :=
  dbCall fun s => .ok ((), s.batchSet kvs)

def getWorkingTree : MerkleM TreeInfo := fun m =>
  match m.workingTree with
  | some wt => .ok wt m
  | none => .error .workingTreeNotInitialized m

def modifyWorkingTree (f : TreeInfo → TreeInfo) : MerkleM Unit :=
  modify fun m => { m with workingTree := m.workingTree.map f }

def stateOf {α : Type} : EStateM.Result MerkleError Merkle α → Merkle
  | .ok _ m => m
  | .error _ m => m

@[simp] theorem stateOf_ok {α : Type} (a : α) (m : Merkle) : stateOf (.ok a m) = m := rfl

@[simp] theorem stateOf_error {α : Type} (e : MerkleError) (m : Merkle) :
    stateOf (α := α) (.error e m) = m := rfl

section Calls

variable {α β : Type} {m m' : Merkle}

theorem bind_of_ok {x : MerkleM α} {f : α → MerkleM β} {a : α} (ok : x m = .ok a m') :
    (x >>= f) m = f a m' := by
  show EStateM.bind x f m = f a m'
  simp only [EStateM.bind, ok]

theorem bind_of_error {x : MerkleM α} {f : α → MerkleM β} {e : MerkleError}
    (err : x m = .error e m') : (x >>= f) m = .error e m' := by
  show EStateM.bind x f m = .error e m'
  simp only [EStateM.bind, err]

theorem bind_eq_ok {x : MerkleM α} {f : α → MerkleM β} {b : β} (run : (x >>= f) m = .ok b m') :
    ∃ a m₁, x m = .ok a m₁ ∧ f a m₁ = .ok b m' := by
  cases first : x m with
  | ok a m₁ => exact ⟨a, m₁, rfl, by rwa [bind_of_ok first] at run⟩
  | error e m₁ => rw [bind_of_error first] at run; cases run

theorem pure_bind_apply {a : α} {f : α → MerkleM β} : (pure a >>= f) m = f a m := rfl

@[simp] theorem pure_apply (a : α) : (pure a : MerkleM α) m = .ok a m := rfl

theorem dbSet_apply (k : Bytes) (v : Value) :
    dbSet k v m = if m.db.failing then .error .store { m with db := m.db.tick }
      else .ok () { m with db := ⟨m.db.store.set k v, m.db.faults.tail⟩ } := rfl

theorem dbDelete_apply (k : Bytes) :
    dbDelete k m = if m.db.failing then .error .store { m with db := m.db.tick }
      else .ok () { m with db := ⟨m.db.store.delete k, m.db.faults.tail⟩ } := rfl

theorem dbCall_read {op : Store Value → Except MerkleError (α × Store Value)} {a : α}
    (healthy : m.db.faults = []) (read : op m.db.store = .ok (a, m.db.store)) :
    dbCall op m = .ok a m := by
  obtain ⟨⟨store, faults⟩, wt⟩ := m
  subst healthy
  simp only at read
  simp [dbCall, read]

theorem dbCall_read_error {op : Store Value → Except MerkleError (α × Store Value)}
    {e : MerkleError} (healthy : m.db.faults = []) (read : op m.db.store = .error e) :
    dbCall op m = .error e m := by
  obtain ⟨⟨store, faults⟩, wt⟩ := m
  subst healthy
  simp only at read
  simp [dbCall, read]

theorem dbCall_error {op : Store Value → Except MerkleError (α × Store Value)} {e : MerkleError}
    (err : dbCall op m = .error e m') : e = .store ∨ op m.db.store = .error e := by
  unfold dbCall at err
  split at err
  · cases err
    exact .inl rfl
  · split at err
    · cases err
    · rename_i e' read
      cases err
      exact .inr read

theorem dbCall_ok {op : Store Value → Except MerkleError (α × Store Value)} {a : α}
    (ok : dbCall op m = .ok a m') :
    ∃ s, op m.db.store = .ok (a, s) ∧ m' = { m with db := ⟨s, m.db.faults.tail⟩ } := by
  unfold dbCall at ok
  split at ok
  · cases ok
  · split at ok
    · rename_i a' s read
      cases ok
      exact ⟨s, read, rfl⟩
    · cases ok

theorem dbBatchSet_ok {kvs : List (RawKV Value)} (run : dbBatchSet kvs m = .ok () m') :
    m' = { m with db := ⟨m.db.store.batchSet kvs, m.db.faults.tail⟩ } := by
  obtain ⟨s, op, rfl⟩ := dbCall_ok run
  cases op
  rfl

theorem dbBatchSet_healthy (kvs : List (RawKV Value)) (healthy : m.db.faults = []) :
    dbBatchSet kvs m = .ok () { m with db := ⟨m.db.store.batchSet kvs, []⟩ } := by
  obtain ⟨⟨store, faults⟩, wt⟩ := m
  subst healthy
  rfl

theorem getWorkingTree_of_some {wt : TreeInfo} (h : m.workingTree = some wt) :
    getWorkingTree m = .ok wt m := by
  simp [getWorkingTree, h]

theorem getWorkingTree_of_none (h : m.workingTree = none) :
    getWorkingTree m = .error .workingTreeNotInitialized m := by
  simp [getWorkingTree, h]

theorem modifyWorkingTree_apply (f : TreeInfo → TreeInfo) :
    modifyWorkingTree f m = .ok () { m with workingTree := m.workingTree.map f } := rfl

end Calls

end Merkle

end OpinitBots
