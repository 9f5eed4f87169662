import OpinitBots.Merkle.Recovery
import OpinitBots.Merkle.Writes

/-! Rollback and replay. When the chain the bots read is reorganised they roll the engine
back to a snapshot: `DeleteFutureFinalizedTrees` from the first leaf after the snapshot,
`DeleteFutureWorkingTrees` from the version after it, then `LoadWorkingTree` of the snapshot
and the leaves of the new chain. The trees finalized after the snapshot leave their nodes
behind, but each record that points at them is deleted or overwritten, so the engine then
answers `GetProofs` for every leaf as an engine that only ever saw the new leaves. -/
namespace OpinitBots.Merkle

section Answers

variable (nodeGeneratorFn : NodeGeneratorFn) (emptyRootHash : EmptyRootHash)

theorem get_finalizedResult_other {store : Store Value} {t s : Nat} {leaves : List Bytes}
    {e k : Bytes} (other : k ≠ prefixedFinalizedTreeKey s) :
    (store.batchSet (finalizedResult nodeGeneratorFn emptyRootHash t s leaves e).1).get k =
      store.get k := by
  unfold finalizedResult
  split
  · rfl
  · exact Store.get_batchSet_other _ _ fun kv mem => by
      rw [List.mem_singleton.mp mem]
      exact Ne.symm other

theorem Stored.of_result {base store : Store Value} {t s : Nat} {leaves : List Bytes} {e : Bytes}
    (before : ∀ k w, base.get k = some w → finalizedTreeKey.isPrefixOf k →
      k = prefixedFinalizedTreeKey s ∧ leaves ≠ [])
    (nodes : leaves ≠ [] → ∀ h j, j < 2 ^ heightOf leaves.length / 2 ^ h →
      store.get (prefixedNodeKey t h j) = some (.raw (nodeAt nodeGeneratorFn
        (leafOf (padLeaves leaves (heightOf leaves.length))) h j)))
    (committed : ∀ k, finalizedTreeKey.isPrefixOf k → store.get k =
      (base.batchSet (finalizedResult nodeGeneratorFn emptyRootHash t s leaves e).1).get k) :
    Stored nodeGeneratorFn store [⟨t, s, leaves, e, merkleRoot nodeGeneratorFn
      (heightOf leaves.length) (padLeaves leaves (heightOf leaves.length))⟩] := by
  by_cases ne : leaves = []
  · subst ne
    refine ⟨fun tr mem ne => absurd (by rw [List.mem_singleton.mp mem]) ne,
      fun tr mem ne => absurd (by rw [List.mem_singleton.mp mem]) ne, fun k w found pk => ?_⟩
    rw [committed k pk, finalizedResult, if_pos rfl, Store.batchSet_nil] at found
    exact absurd rfl (before k w found pk).2
  · rw [finalizedResult_of_ne nodeGeneratorFn emptyRootHash ne] at committed
    dsimp only at committed
    refine ⟨fun tr mem _ => ?_, fun tr mem _ => ?_, fun k w found pk => ?_⟩
    · rw [List.mem_singleton.mp mem, FinalizedRecord, committed _ (finalizedKey_isPrefixOf _),
        Store.batchSet_single, Store.get_set, if_pos rfl]
    · rw [List.mem_singleton.mp mem]
      exact nodes ne
    · rw [committed k pk, Store.batchSet_single, Store.get_set] at found
      split at found
      · rename_i key
        cases found
        exact ⟨_, List.mem_singleton_self _, ne, key.symm, rfl⟩
      · rename_i other
        exact absurd (before k w found pk).1.symm other

/-- `GetProofs` on a store holding one tree: the path siblings for the tree's leaves and
`ErrUnfinalizedTree` for every other uint64 leaf. -/
theorem getProofs_of_single {m : Merkle} {tr : BuiltTree}
    (stored : Stored nodeGeneratorFn m.db.store [tr]) (healthy : m.db.faults = [])
    (start : 1 ≤ tr.start) (room : tr.start + tr.leaves.length ≤ 2 ^ 64) {i : Nat}
    (small : i < 2 ^ 64) :
    getProofs i m = if tr.start ≤ i ∧ i < tr.start + tr.leaves.length then
      .ok (proofPath nodeGeneratorFn (leafOf tr.padded) tr.height 0 (i - tr.start), tr.index,
        tr.root, tr.extraData) m
    else .error .unfinalizedTree m := by
  have view := stored.view nodeGeneratorFn
    (fun a mem ne => by
      obtain rfl := List.mem_singleton.mp mem
      have := List.length_pos.mpr ne
      omega)
    fun a ma b mb lt => by
      rw [List.mem_singleton.mp ma, List.mem_singleton.mp mb] at lt
      omega
  split_ifs with covered
  · have pos : 1 ≤ tr.leaves.length := by omega
    exact stored.getProofs nodeGeneratorFn view healthy (List.mem_singleton_self _)
      (heightOf_bounds pos (by omega)).1 small covered.1 covered.2
  · refine getProofs_of_uncovered view healthy small fun g record covers => covered ?_
    obtain ⟨tr', mem, -, -, same⟩ := stored.only _ _ record (finalizedKey_isPrefixOf g)
    rw [List.mem_singleton.mp mem] at same
    cases same
    exact covers

theorem nodeAt_padLeaves_append {A C : List Bytes} {H h j : Nat} (hj : j < A.length / 2 ^ h) :
    nodeAt nodeGeneratorFn (leafOf (padLeaves (A ++ C) H)) h j =
      nodeAt nodeGeneratorFn (leafOf A) h j :=
  nodeAt_congr nodeGeneratorFn h j fun i hi => by
    have within := block_within hj
    rw [Nat.succ_mul] at within
    rw [leafOf_padLeaves H (by rw [List.length_append]; omega)]
    simp only [leafOf, List.getD_append _ _ _ _ (by omega : j * 2 ^ h + i < A.length)]

end Answers

section Runs

variable (nodeGeneratorFn : NodeGeneratorFn) (emptyRootHash : EmptyRootHash)

/-- Further trees, each started at the leaf after the last one's, filled with its leaves,
finalized and committed with its extra data. -/
def commitTrees : Nat → Nat → List (List Bytes × Bytes) → MerkleM Unit
  | _, _, [] => pure ()
  | t, s, (D, e) :: later => do
    initializeWorkingTree t s
    D.forM (insertLeaf nodeGeneratorFn)
    let _ ← finalizeAndCommit nodeGeneratorFn emptyRootHash e
    commitTrees (t + 1) (s + D.length) later

/-- The run a rollback undoes: tree `(t, s)` over `A` with its snapshot at `v`, then the
leaves `C`, the tree finalized and committed, and the `later` trees after it. -/
def committedRun (t s v : Nat) (A C : List Bytes) (e' : Bytes)
    (later : List (List Bytes × Bytes)) : MerkleM Unit := do
  savedRun nodeGeneratorFn t s v A
  C.forM (insertLeaf nodeGeneratorFn)
  let _ ← finalizeAndCommit nodeGeneratorFn emptyRootHash e'
  commitTrees nodeGeneratorFn emptyRootHash (t + 1) (s + (A ++ C).length) later

/-- The rollback: the finalized trees from leaf `cutoff` on and the snapshots from `version`
on are deleted. -/
def rollback (cutoff version : Nat) : MerkleM Unit := do
  deleteFutureFinalizedTrees cutoff
  deleteFutureWorkingTrees version

end Runs

section Reorg

variable (nodeGeneratorFn : NodeGeneratorFn) (emptyRootHash : EmptyRootHash)

theorem commitTrees_healthy : ∀ (later : List (List Bytes × Bytes)) {t s : Nat} {m : Merkle},
    1 ≤ t → 1 ≤ s → m.db.faults = [] → t + later.length ≤ 2 ^ 64 →
    s + (later.map fun d => d.1.length).sum < 2 ^ 64 →
    ∃ m', commitTrees nodeGeneratorFn emptyRootHash t s later m = .ok () m' ∧
      m'.db.faults = [] ∧
      ∀ k, (∀ t', t ≤ t' → t' < 2 ^ 64 → ¬ NodeOf t' k) →
        (∀ s', s ≤ s' → s' < 2 ^ 64 → k ≠ prefixedFinalizedTreeKey s') →
        m'.db.store.get k = m.db.store.get k
  | [], _, _, m, _, _, healthy, _, _ => ⟨m, rfl, healthy, fun _ _ _ => rfl⟩
  | (D, e) :: later, t, s, m, ht, hs, healthy, index, room => by
    simp only [List.length_cons, List.map_cons, List.sum_cons] at index room
    obtain ⟨m₁, run, healthy₁, -, rest⟩ := insertAll_finalizeAndCommit nodeGeneratorFn
      emptyRootHash (m := { m with workingTree := some ⟨t, s, 0, fun _ => none, false⟩ }) rfl
      (Frontier.fresh nodeGeneratorFn m.db.store t s) healthy D
      (by rw [List.nil_append]; omega) e
    obtain ⟨_, mD, insert, commit⟩ := bind_eq_ok run
    obtain ⟨m', runLater, healthy', keep⟩ := commitTrees_healthy later (by omega : 1 ≤ t + 1)
      (by omega : 1 ≤ s + D.length) healthy₁ (by omega) (by omega)
    refine ⟨m', ?_, healthy', fun k off other => (keep k (fun t' le => off t' (by omega))
      fun s' le => other s' (by omega)).trans ?_⟩
    · rw [commitTrees, bind_of_ok (initializeWorkingTree_of_valid ht hs), bind_of_ok insert,
        bind_of_ok commit]
      exact runLater
    · rw [rest k (off t le_rfl (by omega))]
      exact get_finalizedResult_other nodeGeneratorFn emptyRootHash (other s le_rfl (by omega))

/-- On a store that answers and holds no finalized records, the committed run returns. The
store then holds the snapshot of the tree over `A` at `v` and its frontier, and records only
under the first tree's start and under starts from the first leaf after `C` on. -/
theorem committedRun_healthy {t s : Nat} (valid : 1 ≤ t ∧ 1 ≤ s) (v : Nat) (A C : List Bytes)
    (e' : Bytes) (later : List (List Bytes × Bytes)) {m : Merkle}
    (fresh : ∀ k w, m.db.store.get k = some w → finalizedTreeKey.isPrefixOf k = false)
    (healthy : m.db.faults = []) (index : t + later.length < 2 ^ 64)
    (room : s + (A ++ C).length + (later.map fun d => d.1.length).sum < 2 ^ 64) :
    ∃ m₁ wt, committedRun nodeGeneratorFn emptyRootHash t s v A C e' later m = .ok () m₁ ∧
      m₁.db.faults = [] ∧ m₁.db.store.get (prefixedWorkingTreeKey v) = some (.treeInfo wt) ∧
      wt.index = t ∧ wt.startLeafIndex = s ∧ wt.done = false ∧
      Frontier nodeGeneratorFn m₁.db.store wt A ∧
      ∀ k w, m₁.db.store.get k = some w → finalizedTreeKey.isPrefixOf k →
        k = prefixedFinalizedTreeKey s ∨
          ∃ s', s + (A ++ C).length ≤ s' ∧ s' < 2 ^ 64 ∧ k = prefixedFinalizedTreeKey s' := by
  have lengths := List.length_append A C
  obtain ⟨mS, wt, saved, healthyS, hw, index_t, start, active, -, frontier, snap, kept⟩ :=
    savedRun_healthy nodeGeneratorFn valid v A healthy (by omega)
  -- the tree over `A ++ C`, finalized and committed
  obtain ⟨m₅, runC, healthy₅, nodes₅, rest₅⟩ := insertAll_finalizeAndCommit nodeGeneratorFn
    emptyRootHash hw frontier healthyS C (by omega) e'
  obtain ⟨_, mC, insertC, commitC⟩ := bind_eq_ok runC
  rw [index_t, start] at rest₅
  rw [index_t] at nodes₅
  have keep₅ : ∀ k, ¬ NodeOf t k → k ≠ prefixedFinalizedTreeKey s →
      m₅.db.store.get k = mS.db.store.get k := fun k off other =>
    (rest₅ k off).trans (get_finalizedResult_other nodeGeneratorFn emptyRootHash other)
  -- the later trees, finalized and committed
  obtain ⟨m₁, runLater, healthy₁, keep₁⟩ := commitTrees_healthy nodeGeneratorFn emptyRootHash
    later (by omega : 1 ≤ t + 1) (by omega : 1 ≤ s + (A ++ C).length) healthy₅ (by omega)
    (by omega)
  -- a node of tree `t` is no node of a later tree, and neither nodes nor snapshots are records
  have other_tree : ∀ h j t', t + 1 ≤ t' → t' < 2 ^ 64 → ¬ NodeOf t' (prefixedNodeKey t h j) :=
    fun h j t' le lt ⟨_, _, same⟩ => by
      have := prefixedNodeKey_index (by omega) lt same
      omega
  have not_record : ∀ h j s', prefixedNodeKey t h j ≠ prefixedFinalizedTreeKey s' := fun h j s' =>
    (ne_of_finalizedPrefix (finalizedTreeKey_isPrefixOf s') (node_not_finalized t h j)).symm
  have snapshot_key : ∀ s', prefixedWorkingTreeKey v ≠ prefixedFinalizedTreeKey s' := fun s' =>
    (ne_of_finalizedPrefix (finalizedTreeKey_isPrefixOf s') (working_not_finalized v)).symm
  have snapshot_off : ∀ t', ¬ NodeOf t' (prefixedWorkingTreeKey v) := fun _ ⟨_, _, same⟩ =>
    prefixedNodeKey_ne_working _ _ _ _ same.symm
  refine ⟨m₁, wt, ?_, healthy₁, ?_, index_t, start, active, frontier.frame fun h j hj => ?_,
    fun k w found pk => ?_⟩
  · rw [committedRun, bind_of_ok saved, bind_of_ok insertC, bind_of_ok commitC]
    exact runLater
  · rw [keep₁ _ (fun t' _ _ => snapshot_off t') fun s' _ _ => snapshot_key s',
      keep₅ _ (snapshot_off _) (snapshot_key _)]
    exact snap
  · -- the frontier's nodes are nodes of the padded tree over `A ++ C`, over `A` alone
    rw [index_t, keep₁ _ (other_tree h j) fun s' _ _ => not_record h j s']
    have ne : A ++ C ≠ [] := fun empty => by
      rw [List.append_eq_nil.mp empty |>.1, List.length_nil, Nat.zero_div] at hj; omega
    have fits := (heightOf_bounds (List.length_pos.mpr ne) (by omega)).1
    rw [nodes₅ ne h j (Nat.lt_of_lt_of_le hj (Nat.div_le_div_right (by omega))),
      nodeAt_padLeaves_append nodeGeneratorFn hj, ← index_t]
    exact (frontier.nodes h j hj).symm
  · -- a record is the first tree's or a later one's: the store started with none
    by_cases later_record : ∃ s', s + (A ++ C).length ≤ s' ∧ s' < 2 ^ 64 ∧
        k = prefixedFinalizedTreeKey s'
    · exact .inr later_record
    by_cases first : k = prefixedFinalizedTreeKey s
    · exact .inl first
    simp only [not_exists, not_and] at later_record
    rw [keep₁ k (fun _ _ _ => not_nodeOf_of_finalized pk) later_record,
      keep₅ k (not_nodeOf_of_finalized pk) first, kept k (not_nodeOf_of_finalized pk)
        (ne_of_finalizedPrefix pk (working_not_finalized v))] at found
    rw [fresh k w found] at pk
    cases pk

/-- The rollback to the snapshot at `v` of the committed run's store: the snapshot and its
frontier stay, and the only record left is the first tree's, when it has leaves before the
snapshot. -/
theorem rollback_committed {s v : Nat} {A C : List Bytes} {wt : TreeInfo} {m₁ : Merkle}
    (healthy : m₁.db.faults = []) (small : v < 2 ^ 64) (start : s < 2 ^ 64)
    (snap : m₁.db.store.get (prefixedWorkingTreeKey v) = some (.treeInfo wt))
    (frontier : Frontier nodeGeneratorFn m₁.db.store wt A)
    (records : ∀ k w, m₁.db.store.get k = some w → finalizedTreeKey.isPrefixOf k →
      k = prefixedFinalizedTreeKey s ∨
        ∃ s', s + (A ++ C).length ≤ s' ∧ s' < 2 ^ 64 ∧ k = prefixedFinalizedTreeKey s') :
    ∃ m₂, rollback (s + A.length) (v + 1) m₁ = .ok () m₂ ∧ m₂.db.faults = [] ∧
      m₂.db.store.get (prefixedWorkingTreeKey v) = some (.treeInfo wt) ∧
      Frontier nodeGeneratorFn m₂.db.store wt A ∧
      ∀ k w, m₂.db.store.get k = some w → finalizedTreeKey.isPrefixOf k →
        k = prefixedFinalizedTreeKey s ∧ A ≠ [] := by
  have lengths := List.length_append A C
  have finalized := prunePrefixed_prunedFrom m₁.db.store finalizedTreeKey (s + A.length)
  have working := prunePrefixed_prunedFrom (prunePrefixed m₁.db.store finalizedTreeKey
    (s + A.length)) workingTreeKey (v + 1)
  -- a key under neither prefix reads as before
  have kept : ∀ k, finalizedTreeKey.isPrefixOf k = false → workingTreeKey.isPrefixOf k = false →
      (prunePrefixed (prunePrefixed m₁.db.store finalizedTreeKey (s + A.length)) workingTreeKey
        (v + 1)).get k = m₁.db.store.get k := fun k pf pw => by
    rw [working k, if_neg fun doomed => by rw [pw] at doomed; exact Bool.false_ne_true doomed.1,
      finalized k, if_neg fun doomed => by rw [pf] at doomed; exact Bool.false_ne_true doomed.1]
  refine ⟨⟨⟨prunePrefixed (prunePrefixed m₁.db.store finalizedTreeKey (s + A.length))
      workingTreeKey (v + 1), []⟩, m₁.workingTree⟩, ?_, rfl, ?_,
    frontier.frame fun h j _ => kept _ (node_not_finalized _ _ _) rfl, fun k w found pk => ?_⟩
  · rw [rollback, bind_of_ok (x := deleteFutureFinalizedTrees _)
      (prefixedIterate_deleteFrom _ (s + A.length) healthy)]
    exact prefixedIterate_deleteFrom _ (v + 1) rfl
  · rw [working, trailing_prefixedWorkingTreeKey small,
      if_neg fun doomed => absurd doomed.2 (by omega), finalized, if_neg fun doomed => by
        rw [working_not_finalized] at doomed; exact Bool.false_ne_true doomed.1]
    exact snap
  · -- a record left has its start below the cutoff: the later trees' are gone
    have pw : workingTreeKey.isPrefixOf k ≠ true := fun pw =>
      not_engineKey_of_finalized pk (.inr pw)
    rw [working, if_neg fun doomed => pw doomed.1, finalized] at found
    split_ifs at found with doomed
    rcases records k w found pk with rfl | ⟨s', le, lt, rfl⟩
    · rw [trailing_prefixedFinalizedTreeKey start] at doomed
      refine ⟨rfl, fun empty => doomed ⟨pk, ?_⟩⟩
      rw [empty, List.length_nil, Nat.add_zero]
    · rw [trailing_prefixedFinalizedTreeKey lt] at doomed
      exact absurd ⟨pk, by omega⟩ doomed

/-- Rollback and replay. A run builds tree `(t, s)` over `A`, saves it at `v`, goes on with
`C`, finalizes and commits, then builds, finalizes and commits any number of later trees.
It is rolled back to the snapshot: finalized trees from the first leaf after `A` and
snapshots from `v + 1` are deleted. A fresh engine that loads `v`, inserts `B` and finalizes
returns the batch and root of a run that inserts `A ++ B` on the first store, and
`GetProofs` then answers every uint64 leaf as that run's engine does: the same proofs for
the leaves of `A ++ B`, and `ErrUnfinalizedTree` for every other leaf, those of `C` and of
the later trees included. -/
theorem replay_after_rollback {t s : Nat} (valid : 1 ≤ t ∧ 1 ≤ s) (v : Nat)
    (A C B : List Bytes) (e' : Bytes) (later : List (List Bytes × Bytes)) (e : Bytes)
    {m : Merkle} (fresh : ∀ k w, m.db.store.get k = some w → finalizedTreeKey.isPrefixOf k = false)
    (healthy : m.db.faults = []) (index : t + later.length < 2 ^ 64) (small : v < 2 ^ 64)
    (room : s + (A ++ C).length + (later.map fun d => d.1.length).sum < 2 ^ 64)
    (roomB : s + (A ++ B).length ≤ 2 ^ 64) :
    ∃ m₁ m₂ r m₃ m₄,
      committedRun nodeGeneratorFn emptyRootHash t s v A C e' later m = .ok () m₁ ∧
      rollback (s + A.length) (v + 1) m₁ = .ok () m₂ ∧
      resumedRun nodeGeneratorFn emptyRootHash v B e ⟨m₂.db, none⟩ = .ok r m₃ ∧
      uninterruptedRun nodeGeneratorFn emptyRootHash t s (A ++ B) e m = .ok r m₄ ∧
      ∀ i < 2 ^ 64, if s ≤ i ∧ i < s + (A ++ B).length then
        ∃ r', getProofs i m₃ = .ok r' m₃ ∧ getProofs i m₄ = .ok r' m₄
      else getProofs i m₃ = .error .unfinalizedTree m₃ ∧
        getProofs i m₄ = .error .unfinalizedTree m₄ := by
  obtain ⟨m₁, wt, committed, healthy₁, snap₁, index_t, start, active, frontier₁, records₁⟩ :=
    committedRun_healthy nodeGeneratorFn emptyRootHash valid v A C e' later fresh healthy index room
  obtain ⟨m₂, rolled, healthy₂, snap₂, frontier₂, records₂⟩ :=
    rollback_committed nodeGeneratorFn healthy₁ small (by omega) snap₁ frontier₁ records₁
  have smallB : (A ++ B).length < 2 ^ 64 := by omega
  -- the replay on the rolled-back store, and the run that never saw `C` and the later trees
  obtain ⟨m₃, run₃, healthy₃, nodes₃, rest₃⟩ := insertAll_finalizeAndCommit nodeGeneratorFn
    emptyRootHash (m := ⟨m₂.db, some wt⟩) rfl frontier₂ healthy₂ B smallB e
  obtain ⟨m₄, run₄, healthy₄, nodes₄, rest₄⟩ := insertAll_finalizeAndCommit nodeGeneratorFn
    emptyRootHash (m := { m with workingTree := some ⟨t, s, 0, fun _ => none, false⟩ }) rfl
    (Frontier.fresh nodeGeneratorFn m.db.store t s) healthy (A ++ B) (by simpa using smallB) e
  rw [index_t, start] at run₃ rest₃
  rw [index_t] at nodes₃
  simp only [List.nil_append] at run₄ nodes₄ rest₄
  -- both stores hold the one tree over `A ++ B`
  have stored₃ := Stored.of_result nodeGeneratorFn emptyRootHash
    (fun k w found pk => let ⟨key, ne⟩ := records₂ k w found pk
      ⟨key, fun empty => ne (List.append_eq_nil.mp empty).1⟩)
    nodes₃ fun k pk => rest₃ k (not_nodeOf_of_finalized pk)
  have stored₄ := Stored.of_result nodeGeneratorFn emptyRootHash
    (fun k w found pk => by rw [fresh k w found] at pk; cases pk)
    nodes₄ fun k pk => rest₄ k (not_nodeOf_of_finalized pk)
  refine ⟨m₁, m₂, finalizedResult nodeGeneratorFn emptyRootHash t s (A ++ B) e, m₃, m₄, committed,
    rolled, ?_, ?_, fun i lt => ?_⟩
  · rw [resumedRun, bind_of_ok (loadWorkingTree_of_snapshot (m := ⟨m₂.db, none⟩) healthy₂ snap₂ active)]
    exact run₃
  · rw [uninterruptedRun, bind_of_ok (initializeWorkingTree_of_valid valid.1 valid.2)]
    exact run₄
  · rw [getProofs_of_single nodeGeneratorFn stored₃ healthy₃ valid.2 roomB lt,
      getProofs_of_single nodeGeneratorFn stored₄ healthy₄ valid.2 roomB lt]
    split_ifs
    · exact ⟨_, rfl, rfl⟩
    · exact ⟨rfl, rfl⟩

/-- Leaf [1] saved at version 0, then [7], its tree committed and two later trees over
[8] and [9] committed; rolled back to version 0 and replayed with [2]. -/
theorem replay_after_rollback_two_later_trees :
    ∃ m₁ m₂ r m₃ m₄,
      committedRun sortedConcat [] 1 1 0 [[1]] [[7]] [] [([[8]], []), ([[9]], [])]
        ⟨⟨Store.empty, []⟩, none⟩ = .ok () m₁ ∧
      rollback (1 + [[1]].length) (0 + 1) m₁ = .ok () m₂ ∧
      resumedRun sortedConcat [] 0 [[2]] [] ⟨m₂.db, none⟩ = .ok r m₃ ∧
      uninterruptedRun sortedConcat [] 1 1 ([[1]] ++ [[2]]) [] ⟨⟨Store.empty, []⟩, none⟩ =
        .ok r m₄ ∧
      ∀ i < 2 ^ 64, if 1 ≤ i ∧ i < 1 + ([[1]] ++ [[2]]).length then
        ∃ r', getProofs i m₃ = .ok r' m₃ ∧ getProofs i m₄ = .ok r' m₄
      else getProofs i m₃ = .error .unfinalizedTree m₃ ∧
        getProofs i m₄ = .error .unfinalizedTree m₄ :=
  replay_after_rollback sortedConcat [] ⟨le_rfl, le_rfl⟩ 0 [[1]] [[7]] [[2]] []
    [([[8]], []), ([[9]], [])] [] (m := ⟨⟨Store.empty, []⟩, none⟩) (fun _ _ found => by cases found)
    rfl (by decide) (by decide) (by decide) (by decide)

end Reorg

end OpinitBots.Merkle
