import OpinitBots.Merkle.Wrap

/-! Crash and resume. A run saves its working tree, goes on and stops before it commits;
a fresh engine on the same store loads the snapshot and finishes the tree. What the
crashed run wrote after the snapshot are nodes at or after the snapshot's count, and the
resumed run writes again every node it or `GetProofs` reads, so it ends as a run without
the crash ends. -/
namespace OpinitBots.Merkle

section Runs

variable (nodeGeneratorFn : NodeGeneratorFn) (emptyRootHash : EmptyRootHash)

/-- What `FinalizeWorkingTree` returns for tree `(t, s)` built over `leaves`, read off the
recursive root: no record and the empty root without leaves, else the one record. -/
def finalizedResult (t s : Nat) (leaves : List Bytes) (e : Bytes) :
    List (RawKV Value) × Bytes :=
  if leaves = [] then ([], emptyRootHash)
  else
    let root := merkleRoot nodeGeneratorFn (heightOf leaves.length)
      (padLeaves leaves (heightOf leaves.length))
    ([⟨prefixedFinalizedTreeKey s, some (.finalizedTreeInfo
      ⟨t, heightOf leaves.length, root, s, leaves.length, e⟩)⟩], root)

/-- `FinalizeWorkingTree` with its batch committed, as the bots run it. -/
def finalizeAndCommit (e : Bytes) : MerkleM (List (RawKV Value) × Bytes) := do
  let result ← finalizeWorkingTree nodeGeneratorFn emptyRootHash e
  dbBatchSet result.1
  return result

/-- A run on tree `(t, s)` that saves its working tree at version `v` after the leaves `A`,
goes on with `C` and, when `finalizeToo`, a finalization it never commits, and stops. -/
def crashedRun (t s v : Nat) (A C : List Bytes) (finalizeToo : Bool) (e : Bytes) :
    MerkleM Unit := do
  initializeWorkingTree t s
  A.forM (insertLeaf nodeGeneratorFn)
  saveWorkingTree v
  C.forM (insertLeaf nodeGeneratorFn)
  if finalizeToo then
    let _ ← finalizeWorkingTree nodeGeneratorFn emptyRootHash e
    pure ()

/-- A fresh engine's run after the crash: load version `v`, insert `B`, finalize and
commit. -/
def resumedRun (v : Nat) (B : List Bytes) (e : Bytes) :
    MerkleM (List (RawKV Value) × Bytes) := do
  loadWorkingTree v
  B.forM (insertLeaf nodeGeneratorFn)
  finalizeAndCommit nodeGeneratorFn emptyRootHash e

/-- The tree built without a crash. -/
def uninterruptedRun (t s : Nat) (leaves : List Bytes) (e : Bytes) :
    MerkleM (List (RawKV Value) × Bytes) := do
  initializeWorkingTree t s
  leaves.forM (insertLeaf nodeGeneratorFn)
  finalizeAndCommit nodeGeneratorFn emptyRootHash e

end Runs

section Snapshots

variable {m : Merkle} {wt : TreeInfo} {v : Nat}

theorem saveWorkingTree_healthy (hw : m.workingTree = some wt) (healthy : m.db.faults = []) :
    saveWorkingTree v m =
      .ok () { m with db := ⟨m.db.store.set (prefixedWorkingTreeKey v) (.treeInfo wt), []⟩ } := by
  obtain ⟨⟨store, faults⟩, w⟩ := m
  subst healthy
  simp only [saveWorkingTree]
  rw [bind_of_ok (getWorkingTree_of_some hw)]
  rfl

theorem dbGet_snapshot (healthy : m.db.faults = [])
    (get : m.db.store.get (prefixedWorkingTreeKey v) = some (.treeInfo wt)) :
    dbGet (prefixedWorkingTreeKey v) m = .ok (.treeInfo wt) m :=
  dbCall_read healthy (by simp only [get])

theorem loadWorkingTree_of_snapshot (healthy : m.db.faults = [])
    (get : m.db.store.get (prefixedWorkingTreeKey v) = some (.treeInfo wt))
    (active : wt.done = false) :
    loadWorkingTree v m = .ok () { m with workingTree := some wt } := by
  rw [loadWorkingTree_of_get (dbGet_snapshot healthy get)]
  simp only [unmarshalTreeInfo, active, Bool.false_eq_true, if_false]

theorem loadWorkingTree_of_done (healthy : m.db.faults = [])
    (get : m.db.store.get (prefixedWorkingTreeKey v) = some (.treeInfo wt))
    (done : wt.done = true) (index : wt.index + 1 < 2 ^ 64)
    (start : 0 < (wt.startLeafIndex + wt.leafCount) % 2 ^ 64) :
    loadWorkingTree v m = .ok () ⟨m.db,
      some ⟨wt.index + 1, (wt.startLeafIndex + wt.leafCount) % 2 ^ 64, 0, fun _ => none, false⟩⟩ := by
  rw [loadWorkingTree_of_get (dbGet_snapshot healthy get)]
  simp only [unmarshalTreeInfo, done, Bool.false_eq_true, if_false, if_true,
    Nat.mod_eq_of_lt index]
  exact initializeWorkingTree_of_valid (by omega) start

theorem loadWorkingTree_of_missing (healthy : m.db.faults = [])
    (missing : m.db.store.get (prefixedWorkingTreeKey v) = none) :
    loadWorkingTree v m = .error .notFound m := by
  simp only [loadWorkingTree]
  rw [bind_of_error (x := dbGet _) (dbCall_read_error (e := .notFound) healthy (by simp only [missing]))]

/-- A rollback between a save and a load: a snapshot saved at version `v` on a healthy store,
then `DeleteFutureWorkingTrees cutoff`, then a load of `v` by an engine holding any working
tree (none after a restart). The load gives the saved tree back when `v` is below the cutoff,
and fails with `ErrNotFound`, changing nothing, when it is not. -/
theorem rollback_keeps_snapshots_below_cutoff (hw : m.workingTree = some wt)
    (healthy : m.db.faults = []) (active : wt.done = false) (small : v < 2 ^ 64) (cutoff : Nat)
    (w : Option TreeInfo) :
    ∃ m₁ m₂, saveWorkingTree v m = .ok () m₁ ∧ deleteFutureWorkingTrees cutoff m₁ = .ok () m₂ ∧
      loadWorkingTree v { m₂ with workingTree := w } =
        if v < cutoff then .ok () m₂ else .error .notFound { m₂ with workingTree := w } := by
  refine ⟨_, _, saveWorkingTree_healthy hw healthy, prefixedIterate_deleteFrom _ cutoff rfl, ?_⟩
  have snapshot : workingTreeKey.isPrefixOf (prefixedWorkingTreeKey v) = true :=
    List.isPrefixOf_iff_prefix.mpr (List.prefix_append _ _)
  have pruned := prunePrefixed_prunedFrom (m.db.store.set (prefixedWorkingTreeKey v) (.treeInfo wt))
    workingTreeKey cutoff (prefixedWorkingTreeKey v)
  rw [trailing_prefixedWorkingTreeKey small, Store.get_set, if_pos rfl] at pruned
  by_cases early : v < cutoff
  · rw [if_neg fun doomed => absurd doomed.2 (Nat.not_le.mpr early)] at pruned
    rw [if_pos early, loadWorkingTree_of_snapshot rfl pruned active, ← hw]
  · rw [if_pos ⟨snapshot, Nat.not_lt.mp early⟩] at pruned
    rw [if_neg early, loadWorkingTree_of_missing rfl pruned]

/-- A one-leaf tree saved at version 0, rolled back from version 1 and from version 0. -/
theorem rollback_keeps_snapshots_below_cutoff_one_leaf :
    (∃ m₁ m₂, saveWorkingTree 0 ⟨⟨Store.empty, []⟩, some ⟨1, 1, 1, fun _ => none, false⟩⟩ = .ok () m₁ ∧
      deleteFutureWorkingTrees 1 m₁ = .ok () m₂ ∧
      loadWorkingTree 0 { m₂ with workingTree := none } =
        if 0 < 1 then .ok () m₂ else .error .notFound { m₂ with workingTree := none }) ∧
    ∃ m₁ m₂, saveWorkingTree 0 ⟨⟨Store.empty, []⟩, some ⟨1, 1, 1, fun _ => none, false⟩⟩ = .ok () m₁ ∧
      deleteFutureWorkingTrees 0 m₁ = .ok () m₂ ∧
      loadWorkingTree 0 { m₂ with workingTree := none } =
        if 0 < 0 then .ok () m₂ else .error .notFound { m₂ with workingTree := none } :=
  ⟨rollback_keeps_snapshots_below_cutoff rfl rfl rfl (by decide) 1 none,
    rollback_keeps_snapshots_below_cutoff rfl rfl rfl (by decide) 0 none⟩

end Snapshots

section Build

variable (nodeGeneratorFn : NodeGeneratorFn) (emptyRootHash : EmptyRootHash) {m : Merkle}
  {wt : TreeInfo}

theorem finalizeAndCommit_of_frontier {leaves : List Bytes} (hw : m.workingTree = some wt)
    (frontier : Frontier nodeGeneratorFn m.db.store wt leaves) (small : leaves.length < 2 ^ 64)
    (healthy : m.db.faults = []) (e : Bytes) :
    ∃ m', finalizeAndCommit nodeGeneratorFn emptyRootHash e m = .ok (finalizedResult
        nodeGeneratorFn emptyRootHash wt.index wt.startLeafIndex leaves e) m' ∧
      m'.db.faults = [] ∧
      (leaves ≠ [] → ∀ h j, j < 2 ^ heightOf leaves.length / 2 ^ h →
        m'.db.store.get (prefixedNodeKey wt.index h j) = some (.raw (nodeAt nodeGeneratorFn
          (leafOf (padLeaves leaves (heightOf leaves.length))) h j))) ∧
      ∀ k, ¬ NodeOf wt.index k → m'.db.store.get k = (m.db.store.batchSet (finalizedResult
        nodeGeneratorFn emptyRootHash wt.index wt.startLeafIndex leaves e).1).get k := by
  obtain ⟨kvs, root, m₁, fin, healthy₁⟩ :=
    finalizeWorkingTree_healthy nodeGeneratorFn emptyRootHash e hw healthy
  have spec := finalizeWorkingTree_ok nodeGeneratorFn emptyRootHash hw frontier small fin
  have frame := finalizeWorkingTree_frame nodeGeneratorFn emptyRootHash e hw
    (by rw [frontier.count]; exact Nat.mod_lt _ (by decide))
  rw [fin] at frame
  have result : (kvs, root) = finalizedResult nodeGeneratorFn emptyRootHash wt.index
      wt.startLeafIndex leaves e := by
    unfold finalizedResult
    split_ifs with empty
    · rw [if_pos empty] at spec
      obtain ⟨rfl, rfl, -⟩ := spec
      rfl
    · rw [if_neg empty] at spec
      obtain ⟨-, -, -, -, -, -, rfl, rfl⟩ := spec
      rfl
  rw [finalizeAndCommit, bind_of_ok fin, bind_of_ok (dbBatchSet_healthy _ healthy₁), ← result]
  refine ⟨_, rfl, rfl, fun ne h j lt => ?_, fun k off => ?_⟩
  · rw [if_neg ne] at spec
    obtain ⟨wt', -, index, -, -, frontier', -, rfl⟩ := spec
    have full := padLeaves_length (heightOf_bounds (List.length_pos.mpr ne) small).1
    show (m₁.db.store.set (prefixedFinalizedTreeKey wt.startLeafIndex) _).get _ = _
    rw [Store.get_set, if_neg fun same => not_nodeOf_of_finalized (t := wt.index)
      (finalizedTreeKey_isPrefixOf _) ⟨h, j, same⟩, ← index]
    exact frontier'.nodes h j (by rw [full]; exact lt)
  · exact Store.get_batchSet_congr kvs (frame k fun later => off later.nodeOf)

theorem insertAll_finalizeAndCommit {pre : List Bytes} (hw : m.workingTree = some wt)
    (frontier : Frontier nodeGeneratorFn m.db.store wt pre) (healthy : m.db.faults = [])
    (xs : List Bytes) (small : (pre ++ xs).length < 2 ^ 64) (e : Bytes) :
    ∃ m', (xs.forM (insertLeaf nodeGeneratorFn) >>= fun _ =>
          finalizeAndCommit nodeGeneratorFn emptyRootHash e) m = .ok (finalizedResult
          nodeGeneratorFn emptyRootHash wt.index wt.startLeafIndex (pre ++ xs) e) m' ∧
      m'.db.faults = [] ∧
      (pre ++ xs ≠ [] → ∀ h j, j < 2 ^ heightOf (pre ++ xs).length / 2 ^ h →
        m'.db.store.get (prefixedNodeKey wt.index h j) = some (.raw (nodeAt nodeGeneratorFn
          (leafOf (padLeaves (pre ++ xs) (heightOf (pre ++ xs).length))) h j))) ∧
      ∀ k, ¬ NodeOf wt.index k → m'.db.store.get k = (m.db.store.batchSet (finalizedResult
        nodeGeneratorFn emptyRootHash wt.index wt.startLeafIndex (pre ++ xs) e).1).get k := by
  obtain ⟨m₁, insert, healthy₁, -⟩ := insertAll_healthy nodeGeneratorFn xs hw healthy
  obtain ⟨wt₁, hw₁, index, start, -, frontier₁⟩ :=
    Frontier.insertAll nodeGeneratorFn xs hw frontier (by simpa using small.le) insert
  have frame := insertAll_frame nodeGeneratorFn xs hw
    (by rw [frontier.count, Nat.mod_eq_of_lt (by simp at small; omega)]; simpa using small.le)
  rw [insert] at frame
  obtain ⟨m', run, healthy', nodes, rest⟩ := finalizeAndCommit_of_frontier nodeGeneratorFn
    emptyRootHash hw₁ frontier₁ small healthy₁ e
  rw [index, start] at run
  rw [index] at nodes rest
  rw [start] at rest
  rw [bind_of_ok insert]
  exact ⟨m', run, healthy', nodes, fun k off => (rest k off).trans
    (Store.get_batchSet_congr _ (frame k fun later => off later.nodeOf))⟩

theorem finalizedResult_of_ne {t s : Nat} {leaves : List Bytes} (ne : leaves ≠ []) (e : Bytes) :
    finalizedResult nodeGeneratorFn emptyRootHash t s leaves e =
      let tr : BuiltTree := ⟨t, s, leaves, e, merkleRoot nodeGeneratorFn (heightOf leaves.length)
        (padLeaves leaves (heightOf leaves.length))⟩
      ([⟨tr.info.key, some (.finalizedTreeInfo tr.info)⟩], tr.root) := by
  rw [finalizedResult, if_neg ne]
  rfl

end Build

section Crash

variable (nodeGeneratorFn : NodeGeneratorFn) (emptyRootHash : EmptyRootHash) {m : Merkle}

/-- On a store that answers, the crashed run returns. It leaves the snapshot of the tree
over `A` at version `v`, whose frontier the store still holds, and besides the snapshot it
wrote only nodes of the tree. -/
theorem crashedRun_healthy {t s : Nat} (valid : 1 ≤ t ∧ 1 ≤ s) (v : Nat) (A C : List Bytes)
    (finalizeToo : Bool) (e : Bytes) (healthy : m.db.faults = [])
    (room : A.length + C.length < 2 ^ 64) :
    ∃ m₁ wt, crashedRun nodeGeneratorFn emptyRootHash t s v A C finalizeToo e m = .ok () m₁ ∧
      m₁.db.faults = [] ∧ m₁.db.store.get (prefixedWorkingTreeKey v) = some (.treeInfo wt) ∧
      wt.index = t ∧ wt.startLeafIndex = s ∧ wt.done = false ∧
      Frontier nodeGeneratorFn m₁.db.store wt A ∧
      ∀ k, ¬ NodeOf t k → k ≠ prefixedWorkingTreeKey v → m₁.db.store.get k = m.db.store.get k := by
  have fresh : ({ m with workingTree := some ⟨t, s, 0, fun _ => none, false⟩ } : Merkle).workingTree =
      some ⟨t, s, 0, fun _ => none, false⟩ := rfl
  obtain ⟨mA, insertA, healthyA, -⟩ := insertAll_healthy nodeGeneratorFn A fresh healthy
  obtain ⟨wt, hwA, index, start, active, frontierA⟩ := Frontier.insertAll nodeGeneratorFn A fresh
    (Frontier.fresh nodeGeneratorFn m.db.store t s) (by simp; omega) insertA
  have index : wt.index = t := index
  have start : wt.startLeafIndex = s := start
  rw [List.nil_append] at frontierA
  have frameA := insertAll_frame nodeGeneratorFn A fresh (by simp; omega)
  rw [insertA] at frameA
  have count : wt.leafCount = A.length := by
    rw [frontierA.count, Nat.mod_eq_of_lt (by omega)]
  obtain ⟨mS, save, hwS, healthyS, storeS⟩ : ∃ mS, saveWorkingTree v mA = .ok () mS ∧
      mS.workingTree = some wt ∧ mS.db.faults = [] ∧ ∀ k, mS.db.store.get k =
        if prefixedWorkingTreeKey v = k then some (.treeInfo wt) else mA.db.store.get k :=
    ⟨_, saveWorkingTree_healthy hwA healthyA, hwA, rfl, fun k => Store.get_set _ _ _ _⟩
  have frontierS : Frontier nodeGeneratorFn mS.db.store wt A := frontierA.frame fun h j _ => by
    rw [storeS, if_neg (prefixedNodeKey_ne_working _ _ _ _).symm]
  obtain ⟨mC, insertC, healthyC, -⟩ := insertAll_healthy nodeGeneratorFn C hwS healthyS
  obtain ⟨wtC, hwC, indexC, -, -, frontierC⟩ :=
    Frontier.insertAll nodeGeneratorFn C hwS frontierS (by omega) insertC
  have frameC := insertAll_frame nodeGeneratorFn C hwS (by omega)
  rw [insertC, count] at frameC
  obtain ⟨m₁, finish, healthy₁, frame₁⟩ : ∃ m₁, (if finalizeToo then
        (finalizeWorkingTree nodeGeneratorFn emptyRootHash e >>= fun _ => pure ())
      else pure ()) mC = .ok () m₁ ∧ m₁.db.faults = [] ∧
      Agrees (LaterNode wt.index A.length) mS m₁ := by
    cases finalizeToo
    · exact ⟨mC, rfl, healthyC, frameC⟩
    · obtain ⟨kvs, root, mF, fin, healthyF⟩ :=
        finalizeWorkingTree_healthy nodeGeneratorFn emptyRootHash e hwC healthyC
      have countC : wtC.leafCount = A.length + C.length := by
        rw [frontierC.count, List.length_append, Nat.mod_eq_of_lt room]
      have frameF := finalizeWorkingTree_frame nodeGeneratorFn emptyRootHash e hwC (by omega)
      rw [fin, indexC, countC] at frameF
      exact ⟨mF, by rw [if_pos rfl, bind_of_ok fin]; rfl, healthyF,
        frameC.trans (frameF.mono fun k later => later.mono (Nat.le_add_right _ _))⟩
  have working : ¬ LaterNode wt.index A.length (prefixedWorkingTreeKey v) :=
    fun ⟨h, j, _, _, _, same⟩ => prefixedNodeKey_ne_working _ _ _ _ same.symm
  refine ⟨m₁, wt, ?_, healthy₁, ?_, index, start, active, frame₁.frontier frontierS (by omega),
    fun k off other => ?_⟩
  · rw [crashedRun, bind_of_ok (initializeWorkingTree_of_valid valid.1 valid.2),
      bind_of_ok insertA, bind_of_ok save, bind_of_ok insertC]
    exact finish
  · rw [frame₁ _ working, storeS, if_pos rfl]
  · rw [frame₁ k fun later => off (index ▸ later.nodeOf), storeS, if_neg (Ne.symm other)]
    exact frameA k fun later => off later.nodeOf

end Crash

section Commit

variable (nodeGeneratorFn : NodeGeneratorFn)

/-- No key under the finalized-tree prefix sorts after the record key of leaf `s` and at or
before the key of one of the leaves `s`, ..., `s + n - 1`: the seek from each of these
leaves meets no record of `store` before the one under key `s`. -/
def Unshadowed (store : Store Value) (s n : Nat) : Prop :=
  ∀ k w i, store.get k = some w → finalizedTreeKey.isPrefixOf k → s ≤ i → i < s + n →
    compareBytes k (prefixedFinalizedTreeKey s) = .gt →
    compareBytes k (prefixedFinalizedTreeKey i) = .gt

/-- Committing the record of a tree that starts at or before `s`, or at or after `s + n`,
keeps the leaves `s`, ..., `s + n - 1` unshadowed. -/
theorem Unshadowed.set {store : Store Value} {s n j : Nat} (unshadowed : Unshadowed store s n)
    (small : j < 2 ^ 64) (outside : j ≤ s ∨ s + n ≤ j) (room : s + n ≤ 2 ^ 64) (w : Value) :
    Unshadowed (store.set (prefixedFinalizedTreeKey j) w) s n := fun k v i found pk lo hi after => by
  rw [Store.get_set] at found
  split at found
  · rename_i key
    subst key
    rw [compareBytes_finalizedKey small (by omega), Nat.compare_eq_gt] at after ⊢
    omega
  · exact unshadowed k v i found pk lo hi after

theorem Unshadowed.congr {store store' : Store Value} {s n : Nat} (unshadowed : Unshadowed store s n)
    (same : ∀ k, finalizedTreeKey.isPrefixOf k → store'.get k = store.get k) :
    Unshadowed store' s n := fun k w i found pk =>
  unshadowed k w i ((same k pk).symm.trans found) pk

/-- A store holding a tree's nodes and, among finalized keys, its committed record on top of
a store that leaves the tree's leaves unshadowed answers `GetProofs` for each leaf of the
tree with its path siblings. -/
theorem getProofs_of_commit (tr : BuiltTree) {m' : Merkle} {base : Store Value}
    (healthy : m'.db.faults = []) (unshadowed : Unshadowed base tr.start tr.leaves.length)
    (nodes : ∀ h j, j < 2 ^ tr.height / 2 ^ h → m'.db.store.get (prefixedNodeKey tr.index h j) =
      some (.raw (nodeAt nodeGeneratorFn (leafOf tr.padded) h j)))
    (committed : ∀ k, finalizedTreeKey.isPrefixOf k →
      m'.db.store.get k = (base.set tr.info.key (.finalizedTreeInfo tr.info)).get k)
    (start : 1 ≤ tr.start) (room : tr.start + tr.leaves.length ≤ 2 ^ 64) {i : Nat}
    (lo : tr.start ≤ i) (hi : i < tr.start + tr.leaves.length) :
    getProofs i m' = .ok (proofPath nodeGeneratorFn (leafOf tr.padded) tr.height 0
      (i - tr.start), tr.index, tr.root, tr.extraData) m' := by
  have small : i < 2 ^ 64 := by omega
  have fs : tr.info.startLeafIndex < 2 ^ 64 := show tr.start < 2 ^ 64 by omega
  have record : FinalizedRecord m'.db.store tr.info := by
    rw [FinalizedRecord, committed _ (finalizedKey_isPrefixOf _), Store.get_set, if_pos rfl]
  -- the seek from leaf `i` stops at the tree's own record
  have seek := m'.db.store.seekPrevInclusiveKey_eq_some record (finalizedKey_isPrefixOf _)
    (by rw [FinalizedTreeInfo.key, compareBytes_finalizedKey fs small, ne_eq,
      Nat.compare_eq_gt, not_lt]; exact lo)
    fun k w found pk below => by
      rw [committed k pk, Store.get_set] at found
      split at found
      · rename_i key
        rw [← key, compareBytes_self]
        exact Ordering.noConfusion
      · exact fun after => below (unshadowed k w i found pk lo hi after)
  have fits := (heightOf_bounds (n := tr.leaves.length) (by omega) (by omega)).1
  have path := siblingProofs_of_stored nodeGeneratorFn (leafOf tr.padded) healthy
    (t := tr.index) (H := tr.height) (fun h j lt hj => nodes h j
      (by rw [Nat.pow_div lt.le (by decide)]; exact hj)) tr.height 0 (i - tr.start)
    (Nat.zero_add _) (by rw [Nat.sub_zero]; exact lt_of_lt_of_le (by omega) fits)
  rw [getProofs_of_seek (f := tr.info) (k := tr.info.key)
    (notFoundAsUnfinalized_of_ok (dbCall_read healthy (by simp only [seek])))]
  simp only [BuiltTree.info]
  rw [if_neg (by omega), if_neg (by omega), bind_of_ok path]
  rfl

end Commit

section Resume

variable (nodeGeneratorFn : NodeGeneratorFn) (emptyRootHash : EmptyRootHash)

/-- Crash and resume on a store that answers and whose finalized records, those of earlier
trees included, leave the leaves of `A ++ B` unshadowed: a run that saved tree `(t, s)` after
`A` at version `v`, went on with `C` (and possibly an uncommitted finalization) without the
count wrapping, and a fresh engine that loads `v`, inserts `B` and finalizes, give the batch
and root of a run that inserts `A ++ B` without the crash, and the same `GetProofs` answer
for every leaf of `A ++ B` as long as its indices fit in uint64. Loading a finished snapshot
starts the next tree when its index and start do not wrap to 0. -/
theorem resume_matches_uninterrupted {t s : Nat} (valid : 1 ≤ t ∧ 1 ≤ s) (v : Nat)
    (A C B : List Bytes) (finalizeToo : Bool) (e' e : Bytes) {m : Merkle}
    (unshadowed : Unshadowed m.db.store s (A ++ B).length)
    (healthy : m.db.faults = []) (crashRoom : A.length + C.length < 2 ^ 64)
    (room : s + (A ++ B).length ≤ 2 ^ 64) :
    (∃ m₁ r m₂ m₃,
      crashedRun nodeGeneratorFn emptyRootHash t s v A C finalizeToo e' m = .ok () m₁ ∧
      resumedRun nodeGeneratorFn emptyRootHash v B e ⟨m₁.db, none⟩ = .ok r m₂ ∧
      uninterruptedRun nodeGeneratorFn emptyRootHash t s (A ++ B) e m = .ok r m₃ ∧
      ∀ i, s ≤ i → i < s + (A ++ B).length →
        ∃ r', getProofs i m₂ = .ok r' m₂ ∧ getProofs i m₃ = .ok r' m₃) ∧
    ∀ (m' : Merkle) (w : TreeInfo), m'.db.faults = [] →
      m'.db.store.get (prefixedWorkingTreeKey v) = some (.treeInfo w) → w.done = true →
      w.index + 1 < 2 ^ 64 → 0 < (w.startLeafIndex + w.leafCount) % 2 ^ 64 →
      loadWorkingTree v m' = .ok () ⟨m'.db, some ⟨w.index + 1,
        (w.startLeafIndex + w.leafCount) % 2 ^ 64, 0, fun _ => none, false⟩⟩ := by
  refine ⟨?_, fun m' w healthy' get done index start =>
    loadWorkingTree_of_done healthy' get done index start⟩
  obtain ⟨m₁, wt, crash, healthy₁, snap, index, start, active, frontier, kept⟩ :=
    crashedRun_healthy nodeGeneratorFn emptyRootHash valid v A C finalizeToo e' healthy crashRoom
  have small : (A ++ B).length < 2 ^ 64 := by omega
  obtain ⟨m₂, run₂, healthy₂, nodes₂, rest₂⟩ := insertAll_finalizeAndCommit nodeGeneratorFn
    emptyRootHash (m := ⟨m₁.db, some wt⟩) rfl frontier healthy₁ B small e
  obtain ⟨m₃, run₃, healthy₃, nodes₃, rest₃⟩ := insertAll_finalizeAndCommit nodeGeneratorFn
    emptyRootHash (m := { m with workingTree := some ⟨t, s, 0, fun _ => none, false⟩ }) rfl
    (Frontier.fresh nodeGeneratorFn m.db.store t s) healthy (A ++ B) (by simpa using small) e
  rw [index, start] at run₂ rest₂
  rw [index] at nodes₂
  simp only [List.nil_append] at run₃ nodes₃ rest₃
  refine ⟨m₁, finalizedResult nodeGeneratorFn emptyRootHash t s (A ++ B) e, m₂, m₃, crash, ?_, ?_,
    fun i lo hi => ?_⟩
  · rw [resumedRun, bind_of_ok (loadWorkingTree_of_snapshot (m := ⟨m₁.db, none⟩) healthy₁ snap active)]
    exact run₂
  · rw [uninterruptedRun, bind_of_ok (initializeWorkingTree_of_valid valid.1 valid.2)]
    exact run₃
  · have ne : A ++ B ≠ [] := fun empty => by rw [empty, List.length_nil] at hi; omega
    -- the crash wrote no finalized record
    have crashUnshadowed : Unshadowed m₁.db.store s (A ++ B).length :=
      unshadowed.congr fun k pk => kept k (not_nodeOf_of_finalized pk) fun same => by
        rw [same, working_not_finalized] at pk; cases pk
    rw [finalizedResult_of_ne nodeGeneratorFn emptyRootHash ne] at rest₂ rest₃
    exact ⟨_, getProofs_of_commit nodeGeneratorFn ⟨t, s, A ++ B, e, _⟩ healthy₂ crashUnshadowed
      (nodes₂ ne) (fun k pk => rest₂ k (not_nodeOf_of_finalized pk)) valid.2 room lo hi,
      getProofs_of_commit nodeGeneratorFn ⟨t, s, A ++ B, e, _⟩ healthy₃ unshadowed (nodes₃ ne)
      (fun k pk => rest₃ k (not_nodeOf_of_finalized pk)) valid.2 room lo hi⟩

/-- A store that holds the record of an earlier tree 1 over one leaf at leaf 1; tree 2 from
leaf 2 saves [1] at version 0, loses [7] and an uncommitted finalization, and gets [2] after
the reload: the same batch, root and proofs as [1], [2] without the crash. -/
theorem resume_matches_uninterrupted_two_leaves :
    ∃ m₁ r m₂ m₃, crashedRun sortedConcat [] 2 2 0 [[1]] [[7]] true [] ⟨⟨Store.empty.set
        (prefixedFinalizedTreeKey 1) (.finalizedTreeInfo ⟨1, 0, [5], 1, 1, []⟩), []⟩, none⟩ =
        .ok () m₁ ∧
      resumedRun sortedConcat [] 0 [[2]] [] ⟨m₁.db, none⟩ = .ok r m₂ ∧
      uninterruptedRun sortedConcat [] 2 2 ([[1]] ++ [[2]]) [] ⟨⟨Store.empty.set
        (prefixedFinalizedTreeKey 1) (.finalizedTreeInfo ⟨1, 0, [5], 1, 1, []⟩), []⟩, none⟩ =
        .ok r m₃ ∧
      ∀ i, 2 ≤ i → i < 2 + ([[1]] ++ [[2]]).length →
        ∃ r', getProofs i m₂ = .ok r' m₂ ∧ getProofs i m₃ = .ok r' m₃ :=
  (resume_matches_uninterrupted sortedConcat [] (t := 2) (s := 2) (by decide) 0 [[1]] [[7]]
    [[2]] true [] [] (m := ⟨⟨Store.empty.set (prefixedFinalizedTreeKey 1)
      (.finalizedTreeInfo ⟨1, 0, [5], 1, 1, []⟩), []⟩, none⟩)
    (Unshadowed.set (fun _ _ _ found => by cases found) (by decide) (.inl (by decide))
      (by decide) _)
    rfl (by decide) (by decide)).1

/-- Tree index 2^64 - 1, finalized without leaves and saved at version 0: loading the
finished snapshot asks for tree 2^64, which wraps to 0, and fails instead of starting
the next tree. -/
theorem loadWorkingTree_wraps_last_index :
    ∃ m₁, (do
        initializeWorkingTree (2 ^ 64 - 1) 1
        let _ ← finalizeWorkingTree sortedConcat [] []
        saveWorkingTree 0) (⟨⟨Store.empty, []⟩, none⟩ : Merkle) = .ok () m₁ ∧
      m₁.db.store.get (prefixedWorkingTreeKey 0) =
        some (.treeInfo ⟨2 ^ 64 - 1, 1, 0, fun _ => none, true⟩) ∧
      loadWorkingTree 0 ⟨m₁.db, none⟩ =
        .error (.invalidIndex 0 1) ⟨m₁.db, some ⟨2 ^ 64 - 1, 1, 0, fun _ => none, true⟩⟩ :=
  ⟨_, rfl, rfl, rfl⟩

end Resume

end OpinitBots.Merkle
