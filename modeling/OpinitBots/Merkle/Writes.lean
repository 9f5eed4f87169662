import OpinitBots.Merkle.Frame
/-! What the engine writes. On any engine and whatever its store calls return, every method
writes only under the node prefix and the working-tree prefix: `InsertLeaf` and the padding
of `FinalizeWorkingTree` write nodes, `SaveWorkingTree` writes its snapshot and
`DeleteFutureWorkingTrees` deletes snapshots. No method writes a finalized-tree record:
`FinalizeWorkingTree` returns its record for the caller to commit, and only
`DeleteFutureFinalizedTrees` deletes one. -/
namespace OpinitBots.Merkle

section Writes

variable {α β : Type} {W W' : Bytes → Prop}

/-- A call that, returned or failed, changes the store only at keys in `W`. -/
def WritesOnly (W : Bytes → Prop) (x : MerkleM α) : Prop :=
  ∀ m, Agrees W m (stateOf (x m))

theorem WritesOnly.mono {x : MerkleM α} (sub : ∀ k, W k → W' k) (writes : WritesOnly W x) :
    WritesOnly W' x := fun m => (writes m).mono sub

theorem WritesOnly.bind_of {x : MerkleM α} {f : α → MerkleM β} (P : α → Prop)
    (first : WritesOnly W x) (returns : ∀ m a m', x m = .ok a m' → P a)
    (rest : ∀ a, P a → WritesOnly W (f a)) : WritesOnly W (x >>= f) := fun m => by
  have before := first m
  cases run : x m with
  | ok a m₁ =>
    rw [run] at before
    rw [bind_of_ok run]
    exact before.trans (rest a (returns m a m₁ run) m₁)
  | error e m₁ =>
    rw [run] at before
    rwa [bind_of_error run]

theorem WritesOnly.bind {x : MerkleM α} {f : α → MerkleM β} (first : WritesOnly W x)
    (rest : ∀ a, WritesOnly W (f a)) : WritesOnly W (x >>= f) :=
  first.bind_of (fun _ => True) (fun _ _ _ _ => trivial) fun a _ => rest a

theorem writesOnly_of_store {x : MerkleM α} (same : ∀ m, (stateOf (x m)).db.store = m.db.store) :
    WritesOnly W x := fun m => Agrees.of_store (same m)

theorem writesOnly_pure (a : α) : WritesOnly W (pure a : MerkleM α) :=
  writesOnly_of_store fun _ => rfl

theorem writesOnly_throw (e : MerkleError) : WritesOnly W (throw e : MerkleM α) :=
  writesOnly_of_store fun _ => rfl

theorem writesOnly_getWorkingTree : WritesOnly W getWorkingTree :=
  writesOnly_of_store fun m => by unfold getWorkingTree; split <;> rfl

theorem writesOnly_modifyWorkingTree (f : TreeInfo → TreeInfo) :
    WritesOnly W (modifyWorkingTree f) :=
  writesOnly_of_store fun _ => rfl

theorem writesOnly_setWorkingTree (w : Option TreeInfo) :
    WritesOnly W (modify fun m : Merkle => { m with workingTree := w }) :=
  writesOnly_of_store fun _ => rfl

theorem writesOnly_height : WritesOnly W height :=
  writesOnly_getWorkingTree.bind fun _ => writesOnly_pure _

theorem writesOnly_getLastSibling (h : Nat) : WritesOnly W (getLastSibling h) :=
  writesOnly_of_store fun _ => rfl

theorem writesOnly_dbCall {op : Store Value → Except MerkleError (α × Store Value)}
    (writes : ∀ s a s', op s = .ok (a, s') → ∀ k, ¬ W k → s'.get k = s.get k) :
    WritesOnly W (dbCall op) := fun m k off => by
  unfold dbCall
  split
  · rfl
  · cases h : op m.db.store with
    | ok r => exact writes _ r.1 r.2 h k off
    | error e => rfl

theorem writesOnly_dbGet (k : Bytes) : WritesOnly W (dbGet k) :=
  writesOnly_of_store fun _ => dbGet_store k

theorem writesOnly_dbSet {k : Bytes} (written : W k) (v : Value) : WritesOnly W (dbSet k v) :=
  writesOnly_dbCall fun s _ s' op k' off => by
    cases op
    rw [Store.get_set, if_neg fun (same : k = k') => off (same ▸ written)]

theorem writesOnly_dbDelete {k : Bytes} (deleted : W k) : WritesOnly W (dbDelete k) :=
  writesOnly_dbCall fun s _ s' op k' off => by
    cases op
    rw [Store.get_delete, if_neg fun (same : k = k') => off (same ▸ deleted)]

end Writes

section Methods

variable (nodeGeneratorFn : NodeGeneratorFn) {W : Bytes → Prop}

def NodeKey (k : Bytes) : Prop := nodeKey.isPrefixOf k = true

def SnapshotKey (k : Bytes) : Prop := workingTreeKey.isPrefixOf k = true

theorem prefixedNodeKey_nodeKey (t h j : Nat) : NodeKey (prefixedNodeKey t h j) :=
  List.isPrefixOf_iff_prefix.mpr (List.prefix_append _ _)

theorem prefixedWorkingTreeKey_snapshotKey (version : Nat) :
    SnapshotKey (prefixedWorkingTreeKey version) :=
  List.isPrefixOf_iff_prefix.mpr (List.prefix_append _ _)

theorem saveNode_writesOnly (h j : Nat) (data : Bytes) : WritesOnly NodeKey (saveNode h j data) :=
  (writesOnly_getWorkingTree.bind fun _ => writesOnly_pure _).bind fun t =>
    writesOnly_dbSet (prefixedNodeKey_nodeKey t h j) _

theorem insertLeafLoop_writesOnly :
    ∀ (h j : Nat) (data : Bytes), WritesOnly NodeKey (insertLeafLoop nodeGeneratorFn h j data)
  | h, j, data => by
    rw [insertLeafLoop]
    refine (saveNode_writesOnly h j data).bind fun _ =>
      (writesOnly_getLastSibling h).bind fun sibling =>
        (writesOnly_modifyWorkingTree _).bind fun _ => ?_
    split
    · exact writesOnly_pure _
    · exact insertLeafLoop_writesOnly (h + 1) (j / 2) _
termination_by _ j => j

theorem insertLeaf_writesOnly (data : Bytes) : WritesOnly NodeKey (insertLeaf nodeGeneratorFn data) :=
  writesOnly_getWorkingTree.bind fun wt =>
    (insertLeafLoop_writesOnly nodeGeneratorFn 0 wt.leafCount data).bind fun _ =>
      writesOnly_modifyWorkingTree _

theorem insertLeafTimes_writesOnly (data : Bytes) :
    ∀ n, WritesOnly NodeKey (insertLeafTimes nodeGeneratorFn data n)
  | 0 => writesOnly_pure _
  | n + 1 => (insertLeaf_writesOnly nodeGeneratorFn data).bind fun _ =>
    insertLeafTimes_writesOnly data n

theorem fillLeaves_writesOnly : WritesOnly NodeKey (fillLeaves nodeGeneratorFn) := by
  unfold fillLeaves
  refine writesOnly_getWorkingTree.bind fun wt => writesOnly_height.bind fun h => ?_
  dsimp only
  split
  · exact writesOnly_pure _
  · exact (writesOnly_pure _).bind fun _ => (insertLeafTimes_writesOnly nodeGeneratorFn _ _).bind
      fun _ => writesOnly_modifyWorkingTree _

theorem finalizeWorkingTree_writesOnly (emptyRootHash : EmptyRootHash) (extraData : Bytes) :
    WritesOnly NodeKey (finalizeWorkingTree nodeGeneratorFn emptyRootHash extraData) := by
  unfold finalizeWorkingTree
  refine writesOnly_getWorkingTree.bind fun wt => (writesOnly_modifyWorkingTree _).bind fun _ => ?_
  split
  · exact writesOnly_pure _
  · exact (writesOnly_pure _).bind fun _ => (fillLeaves_writesOnly nodeGeneratorFn).bind fun _ =>
      writesOnly_height.bind fun _ => writesOnly_getWorkingTree.bind fun _ => writesOnly_pure _

theorem initializeWorkingTree_writesOnly (t s : Nat) : WritesOnly W (initializeWorkingTree t s) := by
  unfold initializeWorkingTree
  split
  · exact writesOnly_throw _
  · exact writesOnly_of_store fun _ => rfl

theorem saveWorkingTree_writesOnly (version : Nat) :
    WritesOnly SnapshotKey (saveWorkingTree version) :=
  writesOnly_getWorkingTree.bind fun _ =>
    writesOnly_dbSet (prefixedWorkingTreeKey_snapshotKey version) _

theorem loadWorkingTree_writesOnly (version : Nat) : WritesOnly W (loadWorkingTree version) := by
  unfold loadWorkingTree
  refine (writesOnly_dbGet _).bind fun data => (writesOnly_setWorkingTree _).bind fun _ => ?_
  dsimp only
  -- the decode check, then the next tree when the snapshot is finished
  have next : WritesOnly W (if (unmarshalTreeInfo data).1.done = true then
      initializeWorkingTree (((unmarshalTreeInfo data).1.index + 1) % 2 ^ 64)
        (((unmarshalTreeInfo data).1.startLeafIndex + (unmarshalTreeInfo data).1.leafCount) % 2 ^ 64)
      else pure ()) := by
    split
    · exact initializeWorkingTree_writesOnly _ _
    · exact writesOnly_pure _
  split
  · exact (writesOnly_throw _).bind fun _ => next
  · exact (writesOnly_pure _).bind fun _ => next

theorem iterate_writesOnly {fn : Bytes → Value → MerkleM Bool}
    (each : ∀ k v, WritesOnly (· = k) (fn k v)) :
    ∀ es : List (Bytes × Value), (∀ e ∈ es, W e.1) → WritesOnly W (iterate fn es)
  | [], _ => writesOnly_pure _
  | (k, v) :: rest, visited => by
    refine ((each k v).mono fun _ same => same ▸ visited (k, v) (List.mem_cons_self _ _)).bind
      fun stop => ?_
    split
    · exact writesOnly_pure _
    · exact iterate_writesOnly each rest fun e mem => visited e (List.mem_cons_of_mem _ mem)

theorem deleteFrom_writesOnly (cutoff : Nat) (k : Bytes) (v : Value) :
    WritesOnly (· = k) (deleteFrom cutoff k v) := by
  unfold deleteFrom
  dsimp only
  split
  · exact (writesOnly_dbDelete (W := (· = k)) rfl).bind fun _ => writesOnly_pure _
  · exact (writesOnly_pure _).bind fun _ => writesOnly_pure _

theorem prefixedIterate_deleteFrom_writesOnly (pfx : Bytes) (cutoff : Nat) :
    WritesOnly (fun k => pfx.isPrefixOf k = true) (prefixedIterate pfx (deleteFrom cutoff)) :=
  (writesOnly_of_store fun m => by
      unfold dbPrefixed dbCall
      split <;> rfl).bind_of (fun es => ∀ e ∈ es, pfx.isPrefixOf e.1 = true)
    (fun m es m' listed e mem => by
      obtain ⟨s, op, -⟩ := dbCall_ok listed
      cases op
      exact (Store.mem_prefixed.mp mem).1)
    fun es visited => iterate_writesOnly (deleteFrom_writesOnly cutoff) es visited

end Methods

section Runs

variable (nodeGeneratorFn : NodeGeneratorFn) (emptyRootHash : EmptyRootHash)

/-- One call of the engine on any engine, returned or failed: every method but the query
`GetProofs` and `DeleteFutureFinalizedTrees`. -/
inductive EngineCall : Merkle → Merkle → Prop
  | start {m : Merkle} (treeIndex startLeafIndex : Nat) :
      EngineCall m (stateOf (initializeWorkingTree treeIndex startLeafIndex m))
  | insert {m : Merkle} (data : Bytes) : EngineCall m (stateOf (insertLeaf nodeGeneratorFn data m))
  | finalize {m : Merkle} (extraData : Bytes) :
      EngineCall m (stateOf (finalizeWorkingTree nodeGeneratorFn emptyRootHash extraData m))
  | save {m : Merkle} (version : Nat) : EngineCall m (stateOf (saveWorkingTree version m))
  | load {m : Merkle} (version : Nat) : EngineCall m (stateOf (loadWorkingTree version m))
  | deleteWorkingTrees {m : Merkle} (fromVersion : Nat) :
      EngineCall m (stateOf (deleteFutureWorkingTrees fromVersion m))

def EngineKey (k : Bytes) : Prop := NodeKey k ∨ SnapshotKey k

theorem EngineCall.agrees {m m' : Merkle} (call : EngineCall nodeGeneratorFn emptyRootHash m m') :
    Agrees EngineKey m m' := by
  cases call with
  | start t s => exact initializeWorkingTree_writesOnly t s m
  | insert data => exact (insertLeaf_writesOnly nodeGeneratorFn data).mono (fun _ => .inl) m
  | finalize e =>
    exact (finalizeWorkingTree_writesOnly nodeGeneratorFn emptyRootHash e).mono (fun _ => .inl) m
  | save v => exact (saveWorkingTree_writesOnly v).mono (fun _ => .inr) m
  | load v => exact loadWorkingTree_writesOnly v m
  | deleteWorkingTrees c =>
    exact (prefixedIterate_deleteFrom_writesOnly workingTreeKey c).mono (fun _ => .inr) m

theorem head?_of_isPrefixOf {a : UInt8} {p k : Bytes} (pk : (a :: p).isPrefixOf k = true) :
    k.head? = some a := by
  cases k with
  | nil => cases pk
  | cons b k =>
    simp only [List.isPrefixOf, Bool.and_eq_true, beq_iff_eq] at pk
    rw [pk.1]
    rfl

theorem not_engineKey_of_finalized {k : Bytes} (finalized : finalizedTreeKey.isPrefixOf k = true) :
    ¬ EngineKey k := by
  have first : k.head? = some 102 := head?_of_isPrefixOf finalized
  rintro (node | snapshot)
  · have other : k.head? = some 110 := head?_of_isPrefixOf node
    exact absurd (first.symm.trans other) (by decide)
  · have other : k.head? = some 119 := head?_of_isPrefixOf snapshot
    exact absurd (first.symm.trans other) (by decide)

/-- Over any run of engine calls, on any engine and whatever its store calls return, every
key outside the node and working-tree prefixes keeps its value; in particular no
finalized-tree record is written or deleted. -/
theorem engine_writes_only_nodes_and_snapshots {m m' : Merkle}
    (steps : Relation.ReflTransGen (EngineCall nodeGeneratorFn emptyRootHash) m m') :
    Agrees EngineKey m m' ∧
      ∀ k, finalizedTreeKey.isPrefixOf k = true → m'.db.store.get k = m.db.store.get k := by
  have agrees : Agrees EngineKey m m' := by
    induction steps with
    | refl => exact fun _ _ => rfl
    | tail _ call ih => exact ih.trans (call.agrees nodeGeneratorFn emptyRootHash)
  exact ⟨agrees, fun k finalized => agrees k (not_engineKey_of_finalized finalized)⟩

/-- An empty engine that starts tree 1 at leaf 1, inserts the leaf [1] and saves the
snapshot of version 0: the run writes the leaf's node and the snapshot. -/
theorem engine_writes_only_nodes_and_snapshots_start_insert_save :
    (Agrees EngineKey ⟨⟨Store.empty, []⟩, none⟩ (stateOf (saveWorkingTree 0 (stateOf
        (insertLeaf (fun a b => a ++ b) [1] (stateOf (initializeWorkingTree 1 1
          ⟨⟨Store.empty, []⟩, none⟩)))))) ∧
      ∀ k, finalizedTreeKey.isPrefixOf k = true →
        (stateOf (saveWorkingTree 0 (stateOf (insertLeaf (fun a b => a ++ b) [1] (stateOf
          (initializeWorkingTree 1 1 ⟨⟨Store.empty, []⟩, none⟩)))))).db.store.get k =
          Store.empty.get k) ∧
      (stateOf (saveWorkingTree 0 (stateOf (insertLeaf (fun a b => a ++ b) [1] (stateOf
          (initializeWorkingTree 1 1 ⟨⟨Store.empty, []⟩, none⟩)))))).db.store.get
          (prefixedNodeKey 1 0 0) = some (.raw [1]) ∧
      ∃ w, (stateOf (saveWorkingTree 0 (stateOf (insertLeaf (fun a b => a ++ b) [1] (stateOf
          (initializeWorkingTree 1 1 ⟨⟨Store.empty, []⟩, none⟩)))))).db.store.get
          (prefixedWorkingTreeKey 0) = some (.treeInfo w) :=
  ⟨engine_writes_only_nodes_and_snapshots (fun a b => a ++ b) []
    (.tail (.tail (.single (.start 1 1)) (.insert [1])) (.save 0)), by
    unfold insertLeaf insertLeafLoop
    exact ⟨rfl, _, rfl⟩⟩

end Runs

end OpinitBots.Merkle
