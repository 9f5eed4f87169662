import OpinitBots.Merkle.Prune

/-! Runs of the lifecycle whose leaf indices pass 2^64. `LeafCount` and the start of the
next tree are uint64 sums: 2^64 insertions bring the count back to 0, so the tree
finalizes as empty, and a start that wraps puts a later tree's record below an earlier
tree's range, where the seek of `GetProofs` finds it first. -/
namespace OpinitBots.Merkle

section Trees

variable (nodeGeneratorFn : NodeGeneratorFn) (emptyRootHash : EmptyRootHash) {m : Merkle}
  {g : Ghost}

theorem finalizeWorkingTree_of_zero {wt : TreeInfo} (e : Bytes) (hw : m.workingTree = some wt)
    (zero : wt.leafCount = 0) :
    finalizeWorkingTree nodeGeneratorFn emptyRootHash e m =
      .ok ([], emptyRootHash) { m with workingTree := some { wt with done := true } } := by
  simp only [finalizeWorkingTree]
  rw [bind_of_ok (getWorkingTree_of_some hw), bind_of_ok (modifyWorkingTree_apply _), hw,
    Option.map_some', if_pos zero]
  rfl

theorem not_nodeOf_of_finalized {t : Nat} {k : Bytes} (pk : finalizedTreeKey.isPrefixOf k) :
    ¬ NodeOf t k := by
  rintro ⟨h, j, rfl⟩
  rw [node_not_finalized] at pk
  cases pk

theorem Reachable.tree (run : Reachable nodeGeneratorFn emptyRootHash m g)
    (active : g.finalized = false) (fresh : g.leaves = []) {t s : Nat}
    (hw : m.workingTree = some ⟨t, s, 0, fun _ => none, false⟩) (healthy : m.db.faults = [])
    (xs : List Bytes) (ne : xs ≠ []) (small : xs.length < 2 ^ 64) (e : Bytes) :
    ∃ m' root, Reachable nodeGeneratorFn emptyRootHash m'
        ⟨g.trees ++ [⟨g.index, g.start, xs, e, root⟩], g.index + 1, g.start + xs.length, [],
          true⟩ ∧ m'.db.faults = [] ∧
      (∃ wt, m'.workingTree = some wt ∧ wt.index = t ∧ wt.startLeafIndex = s ∧
        wt.leafCount = xs.length) ∧
      ∀ k, ¬ NodeOf t k → m'.db.store.get k =
        if prefixedFinalizedTreeKey s = k then
          some (.finalizedTreeInfo ⟨t, heightOf xs.length, root, s, xs.length, e⟩)
        else m.db.store.get k := by
  obtain ⟨m₁, insert, healthy₁, -⟩ := insertAll_healthy nodeGeneratorFn xs hw healthy
  obtain ⟨wt₁, hw₁, index₁, start₁, -, frontier₁⟩ := Frontier.insertAll nodeGeneratorFn xs hw
    (Frontier.fresh nodeGeneratorFn m.db.store t s) (by simpa using small.le) insert
  have index₁ : wt₁.index = t := index₁
  have start₁ : wt₁.startLeafIndex = s := start₁
  rw [List.nil_append] at frontier₁
  obtain ⟨kvs, root, m₂, fin, healthy₂⟩ :=
    finalizeWorkingTree_healthy nodeGeneratorFn emptyRootHash e hw₁ healthy₁
  have done := finalizeWorkingTree_ok nodeGeneratorFn emptyRootHash hw₁ frontier₁ small fin
  rw [if_neg ne] at done
  obtain ⟨wt₂, hw₂, index₂, start₂, -, -, -, rfl⟩ := done
  have frame₁ := insertAll_frame nodeGeneratorFn xs hw (by simpa using small.le)
  have frame₂ := finalizeWorkingTree_frame nodeGeneratorFn emptyRootHash e hw₁
    (by rw [frontier₁.count]; exact Nat.mod_lt _ (by decide))
  rw [insert] at frame₁
  rw [fin] at frame₂
  have extended := (run.insertAll nodeGeneratorFn emptyRootHash xs active insert).finalize active
    fin (dbBatchSet_healthy _ healthy₂)
  rw [fresh, List.nil_append] at extended
  refine ⟨_, root, extended, rfl, ⟨_, hw₂, index₂.trans index₁, start₂.trans start₁, rfl⟩,
    fun k off => ?_⟩
  show (m₂.db.store.batchSet _).get k = _
  rw [Store.batchSet_single, Store.get_set, index₁, start₁]
  split
  · rfl
  · exact (frame₂ k fun later => off (index₁ ▸ later.nodeOf)).trans
      (frame₁ k fun later => off later.nodeOf)

/-- 2^64 insertions into a fresh tree bring `LeafCount` back to 0: the finalization that
follows returns no record and the empty root, and only the tree's node keys change. -/
theorem Reachable.tree_of_2_pow_64 (run : Reachable nodeGeneratorFn emptyRootHash m g)
    (active : g.finalized = false) (fresh : g.leaves = []) {t s : Nat}
    (hw : m.workingTree = some ⟨t, s, 0, fun _ => none, false⟩) (healthy : m.db.faults = [])
    (xs : List Bytes) (full : xs.length = 2 ^ 64) (e : Bytes) :
    ∃ m', Reachable nodeGeneratorFn emptyRootHash m'
        ⟨g.trees ++ [⟨g.index, g.start, xs, e, emptyRootHash⟩], g.index + 1, g.start + xs.length,
          [], true⟩ ∧ m'.db.faults = [] ∧
      ∀ k, ¬ NodeOf t k → m'.db.store.get k = m.db.store.get k := by
  obtain ⟨m₁, insert, healthy₁, -⟩ := insertAll_healthy nodeGeneratorFn xs hw healthy
  obtain ⟨wt₁, hw₁, -, -, -, frontier₁⟩ := Frontier.insertAll nodeGeneratorFn xs hw
    (Frontier.fresh nodeGeneratorFn m.db.store t s) (by simp [full]) insert
  have zero : wt₁.leafCount = 0 := by
    rw [frontier₁.count, List.nil_append, full, Nat.mod_self]
  have fin := finalizeWorkingTree_of_zero nodeGeneratorFn emptyRootHash e hw₁ zero
  have frame₁ := insertAll_frame nodeGeneratorFn xs hw (by simp [full])
  rw [insert] at frame₁
  have extended := (run.insertAll nodeGeneratorFn emptyRootHash xs active insert).finalize active
    fin (dbBatchSet_healthy _ healthy₁)
  rw [fresh, List.nil_append] at extended
  exact ⟨_, extended, rfl, fun k off => frame₁ k fun later => off later.nodeOf⟩

end Trees

section Reads

variable {m : Merkle} {i : Nat}

theorem getProofs_of_seek_eq (healthy : m.db.faults = []) {k : Bytes} {f : FinalizedTreeInfo}
    (seek : m.db.store.seekPrevInclusiveKey finalizedTreeKey (prefixedFinalizedTreeKey i) =
      some (k, .finalizedTreeInfo f)) :
    getProofs i m =
      if i < f.startLeafIndex then .error (.leafNotFound i f.treeIndex) m
      else if i - f.startLeafIndex ≥ f.leafCount then .error .unfinalizedTree m
      else (siblingProofs f.treeIndex f.treeHeight 0 (i - f.startLeafIndex) >>= fun proofs =>
        pure (proofs, f.treeIndex, f.root, f.extraData)) m :=
  getProofs_of_seek (k := k) (notFoundAsUnfinalized_of_ok (dbCall_read healthy (by simp only [seek])))

theorem getProofs_ne_unfinalized_of_seek (healthy : m.db.faults = []) {k : Bytes}
    {f : FinalizedTreeInfo}
    (seek : m.db.store.seekPrevInclusiveKey finalizedTreeKey (prefixedFinalizedTreeKey i) =
      some (k, .finalizedTreeInfo f))
    (covers : Covers f i) (m' : Merkle) : getProofs i m ≠ .error .unfinalizedTree m' := by
  obtain ⟨lo, hi⟩ := covers
  rw [getProofs_of_seek_eq healthy seek, if_neg (by omega), if_neg (by omega)]
  cases proofs : siblingProofs f.treeIndex f.treeHeight 0 (i - f.startLeafIndex) m with
  | ok ps m₁ => rw [bind_of_ok proofs]; exact fun h => by cases h
  | error e m₁ =>
    rw [bind_of_error proofs]
    rcases siblingProofs_error proofs with h | h <;> (subst h; exact fun h => by cases h)

theorem getProofs_of_no_records (healthy : m.db.faults = []) (small : i < 2 ^ 64)
    (none : ∀ k v, m.db.store.get k = some v → finalizedTreeKey.isPrefixOf k = false) :
    getProofs i m = .error .unfinalizedTree m :=
  have absent : ∀ f, ¬ FinalizedRecord m.db.store f := fun f record => by
    have := none _ _ record
    rw [finalizedKey_isPrefixOf] at this
    cases this
  getProofs_of_uncovered ⟨fun k v found pk => (by rw [none k v found] at pk; cases pk),
    fun f _ record => absurd record (absent f)⟩ healthy small fun f record => absurd record (absent f)

theorem finalizedKey_ne {a b : Nat} (ha : a < 2 ^ 64) (hb : b < 2 ^ 64) (ne : a ≠ b) :
    prefixedFinalizedTreeKey a ≠ prefixedFinalizedTreeKey b :=
  fun same => ne (prefixedFinalizedTreeKey_inj ha hb same)

theorem compareBytes_finalizedKey_ne_gt {a b : Nat} (ha : a < 2 ^ 64) (hb : b < 2 ^ 64)
    (le : a ≤ b) : compareBytes (prefixedFinalizedTreeKey a) (prefixedFinalizedTreeKey b) ≠ .gt := by
  rw [compareBytes_finalizedKey ha hb, ne_eq, Nat.compare_eq_gt]
  omega

end Reads

section LeafCount

/-- A tree of 2^64 leaves from an empty store: its finalization commits nothing, so leaf 1,
the tree's first leaf, is unfinalized. -/
theorem getProofs_lost_after_2_pow_64_leaves :
    ∃ m, Reachable sortedConcat [] m
        ⟨[⟨1, 1, List.replicate (2 ^ 64) [], [], []⟩], 2, 1 + 2 ^ 64, [], true⟩ ∧
      m.db.faults = [] ∧ getProofs 1 m = .error .unfinalizedTree m := by
  have start : Reachable sortedConcat []
      ⟨⟨Store.empty, []⟩, some ⟨1, 1, 0, fun _ => none, false⟩⟩ ⟨[], 1, 1, [], false⟩ :=
    .init (m := ⟨⟨Store.empty, []⟩, none⟩) (fun k v found => by cases found)
      (by decide) (by decide) (initializeWorkingTree_of_valid le_rfl le_rfl)
  obtain ⟨m, run, healthy, store⟩ := start.tree_of_2_pow_64 sortedConcat [] rfl rfl rfl rfl
    (List.replicate (2 ^ 64) []) (List.length_replicate _ _) []
  rw [List.length_replicate] at run
  refine ⟨m, run, healthy, getProofs_of_no_records healthy (by decide) fun k v found => ?_⟩
  cases pk : finalizedTreeKey.isPrefixOf k
  · rfl
  · rw [store k (not_nodeOf_of_finalized pk)] at found
    cases found

end LeafCount

section StartWrap

variable {store : Store Value} {rootA rootB rootC : Bytes}

/-- The finalized namespace the wrapped run leaves: tree 3's record under start 3, tree 2's
under start 1, tree 1's under start 2. -/
def WrappedRecords (store : Store Value) (rootA rootB rootC : Bytes) : Prop :=
  ∀ k, finalizedTreeKey.isPrefixOf k → store.get k =
    if prefixedFinalizedTreeKey 3 = k then
      some (.finalizedTreeInfo ⟨3, heightOf 1, rootC, 3, 1, []⟩)
    else if prefixedFinalizedTreeKey 1 = k then
      some (.finalizedTreeInfo ⟨2, heightOf 2, rootB, 1, 2, []⟩)
    else if prefixedFinalizedTreeKey 2 = k then
      some (.finalizedTreeInfo ⟨1, heightOf (2 ^ 64 - 1), rootA, 2, 2 ^ 64 - 1, []⟩)
    else none

theorem wrapped_run :
    ∃ m rootA rootB rootC, Reachable sortedConcat [] m
        ⟨[⟨1, 2, List.replicate (2 ^ 64 - 1) [], [], rootA⟩,
          ⟨2, 2 + (2 ^ 64 - 1), [[1], [2]], [], rootB⟩,
          ⟨3, 2 + (2 ^ 64 - 1) + 2, [[3]], [], rootC⟩], 4, 2 + (2 ^ 64 - 1) + 2 + 1, [], true⟩ ∧
      m.db.faults = [] ∧ WrappedRecords m.db.store rootA rootB rootC := by
  have r₁ : Reachable sortedConcat []
      ⟨⟨Store.empty, []⟩, some ⟨1, 2, 0, fun _ => none, false⟩⟩ ⟨[], 1, 2, [], false⟩ :=
    .init (m := ⟨⟨Store.empty, []⟩, none⟩) (fun k v found => by cases found)
      (by decide) (by decide) (initializeWorkingTree_of_valid le_rfl (by decide))
  obtain ⟨m₂, rootA, r₂, healthy₂, ⟨wA, hwA, iA, sA, cA⟩, storeA⟩ := r₁.tree sortedConcat []
    rfl rfl rfl rfl (List.replicate (2 ^ 64 - 1) [])
    (List.length_pos.mp (by rw [List.length_replicate]; decide))
    (by rw [List.length_replicate]; decide) []
  rw [List.length_replicate] at r₂ cA storeA
  have init₃ : initializeWorkingTree ((wA.index + 1) % 2 ^ 64)
      ((wA.startLeafIndex + wA.leafCount) % 2 ^ 64) m₂ =
        .ok () { m₂ with workingTree := some ⟨2, 1, 0, fun _ => none, false⟩ } := by
    rw [iA, sA, cA]; exact initializeWorkingTree_of_valid (by decide) (by decide)
  have r₃ := r₂.nextInit rfl hwA init₃
  obtain ⟨m₄, rootB, r₄, healthy₄, ⟨wB, hwB, iB, sB, cB⟩, storeB⟩ := r₃.tree sortedConcat []
    rfl rfl rfl healthy₂ [[1], [2]] (by simp) (by decide) []
  have init₅ : initializeWorkingTree ((wB.index + 1) % 2 ^ 64)
      ((wB.startLeafIndex + wB.leafCount) % 2 ^ 64) m₄ =
        .ok () { m₄ with workingTree := some ⟨3, 3, 0, fun _ => none, false⟩ } := by
    rw [iB, sB, cB]; exact initializeWorkingTree_of_valid (by decide) (by decide)
  have r₅ := r₄.nextInit rfl hwB init₅
  obtain ⟨m₆, rootC, r₆, healthy₆, -, storeC⟩ := r₅.tree sortedConcat []
    rfl rfl rfl healthy₄ [[3]] (by simp) (by decide) []
  refine ⟨m₆, rootA, rootB, rootC, r₆, healthy₆, fun k pk => ?_⟩
  simp only [storeC k (not_nodeOf_of_finalized pk), storeB k (not_nodeOf_of_finalized pk),
    storeA k (not_nodeOf_of_finalized pk), Store.get_empty]
  rfl

theorem WrappedRecords.seek_four (records : WrappedRecords store rootA rootB rootC) :
    store.seekPrevInclusiveKey finalizedTreeKey (prefixedFinalizedTreeKey 4) =
      some (prefixedFinalizedTreeKey 3, .finalizedTreeInfo ⟨3, heightOf 1, rootC, 3, 1, []⟩) := by
  refine store.seekPrevInclusiveKey_eq_some ?_ (finalizedTreeKey_isPrefixOf 3)
    (compareBytes_finalizedKey_ne_gt (by decide) (by decide) (by decide))
    fun k v found pk _ => ?_
  · rw [records _ (finalizedTreeKey_isPrefixOf 3), if_pos rfl]
  · rw [records k pk] at found
    split_ifs at found with h₃ h₁ h₂
    · subst h₃; simp
    · subst h₁; exact compareBytes_finalizedKey_ne_gt (by decide) (by decide) (by decide)
    · subst h₂; exact compareBytes_finalizedKey_ne_gt (by decide) (by decide) (by decide)

theorem WrappedRecords.record_first (records : WrappedRecords store rootA rootB rootC) :
    FinalizedRecord store ⟨1, heightOf (2 ^ 64 - 1), rootA, 2, 2 ^ 64 - 1, []⟩ := by
  show store.get (prefixedFinalizedTreeKey 2) = _
  rw [records _ (finalizedTreeKey_isPrefixOf 2),
    if_neg (finalizedKey_ne (by decide) (by decide) (by decide)),
    if_neg (finalizedKey_ne (by decide) (by decide) (by decide)), if_pos rfl]

/-- On the wrapped run leaf 4 lies in tree 1's range, yet the seek from 4 finds tree 3's
record, which ends at 4: `GetProofs(4)` answers `ErrUnfinalizedTree`. -/
theorem getProofs_unfinalized_in_wrapped_tree :
    ∃ m g, Reachable sortedConcat [] m g ∧ m.db.faults = [] ∧
      getProofs 4 m = .error .unfinalizedTree m ∧
      ∃ f, FinalizedRecord m.db.store f ∧ Covers f 4 := by
  obtain ⟨m, rootA, rootB, rootC, run, healthy, records⟩ := wrapped_run
  refine ⟨m, _, run, healthy, ?_, _, records.record_first,
    (by decide : 2 ≤ 4), (by decide : 4 < 2 + (2 ^ 64 - 1))⟩
  rw [getProofs_of_seek_eq healthy records.seek_four, if_neg (by simp), if_pos (by simp)]

/-- On the wrapped run, deleting the finalized trees from 3 on removes tree 3's record: the
seek from 4 then finds tree 1's record, which covers leaf 4, so `GetProofs(4)` no longer
answers the `ErrUnfinalizedTree` it answered before. -/
theorem deleteFuture_changes_wrapped_answer :
    ∃ m g m', Reachable sortedConcat [] m g ∧ m.db.faults = [] ∧
      deleteFutureFinalizedTrees 3 m = .ok () m' ∧
      (∃ f, FinalizedRecord m.db.store f ∧ Covers f 4 ∧ f.startLeafIndex < 3) ∧
      getProofs 4 m = .error .unfinalizedTree m ∧
      ∀ m'', getProofs 4 m' ≠ .error .unfinalizedTree m'' := by
  obtain ⟨m, rootA, rootB, rootC, run, healthy, records⟩ := wrapped_run
  have pruned := prunePrefixed_prunedFrom m.db.store finalizedTreeKey 3
  have seek : (prunePrefixed m.db.store finalizedTreeKey 3).seekPrevInclusiveKey finalizedTreeKey
      (prefixedFinalizedTreeKey 4) = some (prefixedFinalizedTreeKey 2,
        .finalizedTreeInfo ⟨1, heightOf (2 ^ 64 - 1), rootA, 2, 2 ^ 64 - 1, []⟩) := by
    refine Store.seekPrevInclusiveKey_eq_some _ ?_ (finalizedTreeKey_isPrefixOf 2)
      (compareBytes_finalizedKey_ne_gt (by decide) (by decide) (by decide))
      fun k v found pk _ => ?_
    · rw [pruned, if_neg fun ⟨_, late⟩ => absurd late
        (by rw [trailing_prefixedFinalizedTreeKey (by decide)]; decide)]
      exact records.record_first
    · rw [pruned k] at found
      split_ifs at found with doomed
      rw [records k pk] at found
      split_ifs at found with h₃ h₁ h₂
      · subst h₃
        exact absurd ⟨pk, (trailing_prefixedFinalizedTreeKey (s := 3) (by decide)).ge⟩ doomed
      · subst h₁; exact compareBytes_finalizedKey_ne_gt (by decide) (by decide) (by decide)
      · subst h₂; simp
  refine ⟨m, _, _, run, healthy, prefixedIterate_deleteFrom _ 3 healthy,
    ⟨_, records.record_first, ⟨(by decide : 2 ≤ 4), (by decide : 4 < 2 + (2 ^ 64 - 1))⟩,
      (by decide : 2 < 3)⟩, ?_, getProofs_ne_unfinalized_of_seek rfl seek
      ⟨(by decide : 2 ≤ 4), (by decide : 4 < 2 + (2 ^ 64 - 1))⟩⟩
  rw [getProofs_of_seek_eq healthy records.seek_four, if_neg (by simp), if_pos (by simp)]

end StartWrap

end OpinitBots.Merkle
