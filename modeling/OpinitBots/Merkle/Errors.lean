import OpinitBots.Merkle.Resume

/-! Failed calls. No method of the engine puts the working tree back when a store call
fails: `InsertLeaf` keeps the last siblings it swapped before the failing write,
`FinalizeWorkingTree` stays done with the padding inserted so far counted, and
`LoadWorkingTree` replaces the tree before it checks the decoding and the next tree's
indices. A retry of a failed `InsertLeaf` pairs the leaf with the sibling it swapped in. -/
namespace OpinitBots.Merkle

section Errors

variable (nodeGeneratorFn : NodeGeneratorFn) {m m' : Merkle} {wt : TreeInfo}

theorem dbCall_error_tree {α : Type} {op : Store Value → Except MerkleError (α × Store Value)}
    {e : MerkleError} (err : dbCall op m = .error e m') : m'.workingTree = m.workingTree := by
  unfold dbCall at err
  split at err
  · cases err
    rfl
  · split at err <;> cases err
    rfl

theorem initializeWorkingTree_error {t s : Nat} {e : MerkleError}
    (err : initializeWorkingTree t s m = .error e m') :
    e = .invalidIndex t s ∧ m' = m ∧ (t = 0 ∨ s = 0) := by
  unfold initializeWorkingTree at err
  split at err
  · cases err
    exact ⟨rfl, rfl, by omega⟩
  · cases err

theorem insertAll_count (xs : List Bytes) : ∀ {m m' : Merkle} {wt : TreeInfo},
    m.workingTree = some wt → wt.leafCount < 2 ^ 64 → wt.leafCount + xs.length ≤ 2 ^ 64 →
    xs.forM (insertLeaf nodeGeneratorFn) m = .ok () m' →
    ∃ ls, m'.workingTree =
      some { wt with lastSiblings := ls, leafCount := (wt.leafCount + xs.length) % 2 ^ 64 } := by
  induction xs with
  | nil =>
    intro m m' wt hw small _ run
    cases run
    exact ⟨wt.lastSiblings, by rw [hw, List.length_nil, Nat.add_zero, Nat.mod_eq_of_lt small]⟩
  | cons x xs ih =>
    intro m m' wt hw small room run
    rw [List.forM_cons'] at run
    obtain ⟨_, m₁, step, rest⟩ := bind_eq_ok run
    rw [List.length_cons] at room
    obtain ⟨ls, hw'⟩ := ih (insertLeaf_ok nodeGeneratorFn hw small x step).1
      (Nat.mod_lt _ (by decide)) (by dsimp only; omega) rest
    refine ⟨ls, hw'.trans ?_⟩
    have count : ((wt.leafCount + 1) % 2 ^ 64 + xs.length) % 2 ^ 64 =
        (wt.leafCount + (xs.length + 1)) % 2 ^ 64 := by omega
    simp only [List.length_cons, count]

/-- Insertions of `xs` that fail: the first `k` returned, the next one failed, and the
count is `k` higher with only the last siblings changed besides. -/
theorem insertAll_error_count (xs : List Bytes) : ∀ {m m' : Merkle} {wt : TreeInfo} {e : MerkleError},
    m.workingTree = some wt → wt.leafCount + xs.length ≤ 2 ^ 64 →
    xs.forM (insertLeaf nodeGeneratorFn) m = .error e m' →
    ∃ ls k m₁ x, k < xs.length ∧ xs[k]? = some x ∧
      (xs.take k).forM (insertLeaf nodeGeneratorFn) m = .ok () m₁ ∧
      insertLeaf nodeGeneratorFn x m₁ = .error e m' ∧
      m'.workingTree = some { wt with lastSiblings := ls, leafCount := wt.leafCount + k } := by
  induction xs with
  | nil => intro m m' wt e _ _ run; cases run
  | cons x xs ih =>
    intro m m' wt e hw room run
    rw [List.length_cons] at room
    have small : wt.leafCount < 2 ^ 64 := by omega
    rw [List.forM_cons'] at run
    cases step : insertLeaf nodeGeneratorFn x m with
    | error e₁ m₁ =>
      rw [bind_of_error step] at run
      cases run
      obtain ⟨ls, hw', -⟩ := insertLeaf_error nodeGeneratorFn hw small step
      exact ⟨ls, 0, m, x, by simp, List.getElem?_cons_zero, rfl, step, hw'⟩
    | ok _ m₁ =>
      rw [bind_of_ok step] at run
      obtain ⟨ls, k, m₂, y, lt, get, pre, fail, hw'⟩ :=
        ih (insertLeaf_ok nodeGeneratorFn hw small x step).1 (by dsimp only; omega) run
      have count : (wt.leafCount + 1) % 2 ^ 64 = wt.leafCount + 1 := by omega
      refine ⟨ls, k + 1, m₂, y, by rw [List.length_cons]; omega, by rw [List.getElem?_cons_succ]; exact get,
        ?_, fail, hw'.trans ?_⟩
      · rw [List.take_succ_cons, List.forM_cons', bind_of_ok step]
        exact pre
      · simp only [count, Nat.add_assoc, Nat.add_comm 1 k]

theorem fillLeaves_ok_tree (hw : m.workingTree = some wt) (pos : 1 ≤ wt.leafCount)
    (small : wt.leafCount < 2 ^ 64) (run : fillLeaves nodeGeneratorFn m = .ok () m') :
    ∃ ls, m'.workingTree = some { wt with lastSiblings := ls } := by
  obtain ⟨fits, le⟩ := heightOf_bounds pos small
  have cap : 2 ^ heightOf wt.leafCount ≤ 2 ^ 64 := Nat.pow_le_pow_right (by decide) le
  rw [fillLeaves_apply nodeGeneratorFn hw pos small] at run
  split at run
  · cases run
    exact ⟨wt.lastSiblings, hw⟩
  · obtain ⟨_, m₁, padding, restored⟩ := bind_eq_ok run
    rw [modifyWorkingTree_apply] at restored
    cases restored
    obtain ⟨ls, hw₁⟩ := insertAll_count nodeGeneratorFn _ hw small
      (by rw [List.length_replicate]; omega) padding
    refine ⟨ls, ?_⟩
    simp only [hw₁, Option.map_some', List.length_replicate, Nat.add_sub_cancel' fits,
      (numRestLeaves_eq pos small).2]

theorem fillLeaves_error_tree (hw : m.workingTree = some wt) (pos : 1 ≤ wt.leafCount)
    (small : wt.leafCount < 2 ^ 64) {e : MerkleError}
    (err : fillLeaves nodeGeneratorFn m = .error e m') :
    ∃ ls k m₁, k < 2 ^ heightOf wt.leafCount - wt.leafCount ∧
      insertLeafTimes nodeGeneratorFn ((wt.lastSiblings 0).getD []) k m = .ok () m₁ ∧
      insertLeaf nodeGeneratorFn ((wt.lastSiblings 0).getD []) m₁ = .error e m' ∧
      m'.workingTree = some { wt with lastSiblings := ls, leafCount := wt.leafCount + k } := by
  obtain ⟨fits, le⟩ := heightOf_bounds pos small
  have cap : 2 ^ heightOf wt.leafCount ≤ 2 ^ 64 := Nat.pow_le_pow_right (by decide) le
  rw [fillLeaves_apply nodeGeneratorFn hw pos small] at err
  split at err
  · cases err
  · cases padding : (List.replicate (2 ^ heightOf wt.leafCount - wt.leafCount)
        ((wt.lastSiblings 0).getD [])).forM (insertLeaf nodeGeneratorFn) m with
    | error e₁ m₁ =>
      rw [bind_of_error padding] at err
      cases err
      obtain ⟨ls, k, m₂, x, lt, get, pre, fail, hw₁⟩ := insertAll_error_count nodeGeneratorFn _ hw
        (by rw [List.length_replicate]; omega) padding
      rw [List.length_replicate] at lt
      rw [List.getElem?_replicate, if_pos lt, Option.some.injEq] at get
      rw [List.take_replicate, Nat.min_eq_left lt.le, ← insertLeafTimes_eq] at pre
      exact ⟨ls, k, m₂, lt, pre, get ▸ fail, hw₁⟩
    | ok _ m₁ => rw [bind_of_ok padding, modifyWorkingTree_apply] at err; cases err

variable (emptyRootHash : EmptyRootHash)

theorem finalizeWorkingTree_ok_tree (hw : m.workingTree = some wt) (small : wt.leafCount < 2 ^ 64)
    {x : Bytes} {r : List (RawKV Value) × Bytes}
    (run : finalizeWorkingTree nodeGeneratorFn emptyRootHash x m = .ok r m') :
    ∃ ls, m'.workingTree = some { wt with lastSiblings := ls, done := true } := by
  simp only [finalizeWorkingTree] at run
  rw [bind_of_ok (getWorkingTree_of_some hw), bind_of_ok (modifyWorkingTree_apply _)] at run
  split at run
  · cases run
    exact ⟨wt.lastSiblings, by rw [hw, Option.map_some']⟩
  · rename_i nonzero
    rw [hw, Option.map_some', bind_of_ok (rfl : (pure () : MerkleM Unit) _ = .ok () _)] at run
    obtain ⟨_, m₁, fill, record⟩ := bind_eq_ok run
    obtain ⟨ls, hw₁⟩ := fillLeaves_ok_tree nodeGeneratorFn (m := ⟨m.db, some { wt with done := true }⟩)
      rfl (Nat.pos_of_ne_zero nonzero) small fill
    rw [bind_of_ok (height_of_some hw₁), bind_of_ok (getWorkingTree_of_some hw₁)] at record
    cases record
    exact ⟨ls, hw₁⟩

/-- A `FinalizeWorkingTree` that fails has marked the tree done, and fails in the padding
insert after the first `k < 2^H - n` returned, which stay counted. -/
theorem finalizeWorkingTree_error_tree (hw : m.workingTree = some wt) (small : wt.leafCount < 2 ^ 64)
    {x : Bytes} {e : MerkleError}
    (err : finalizeWorkingTree nodeGeneratorFn emptyRootHash x m = .error e m') :
    ∃ ls k m₁, k < 2 ^ heightOf wt.leafCount - wt.leafCount ∧
      insertLeafTimes nodeGeneratorFn ((wt.lastSiblings 0).getD []) k
        ⟨m.db, some { wt with done := true }⟩ = .ok () m₁ ∧
      insertLeaf nodeGeneratorFn ((wt.lastSiblings 0).getD []) m₁ = .error e m' ∧
      m'.workingTree = some { wt with lastSiblings := ls, leafCount := wt.leafCount + k, done := true } := by
  simp only [finalizeWorkingTree] at err
  rw [bind_of_ok (getWorkingTree_of_some hw), bind_of_ok (modifyWorkingTree_apply _)] at err
  split at err
  · cases err
  · rename_i nonzero
    rw [hw, Option.map_some', bind_of_ok (rfl : (pure () : MerkleM Unit) _ = .ok () _)] at err
    cases fill : fillLeaves nodeGeneratorFn ⟨m.db, some { wt with done := true }⟩ with
    | error e₁ m₁ =>
      rw [bind_of_error fill] at err
      cases err
      exact fillLeaves_error_tree nodeGeneratorFn (m := ⟨m.db, some { wt with done := true }⟩) rfl
        (Nat.pos_of_ne_zero nonzero) small fill
    | ok _ m₁ =>
      obtain ⟨ls, hw₁⟩ := fillLeaves_ok_tree nodeGeneratorFn (m := ⟨m.db, some { wt with done := true }⟩)
        rfl (Nat.pos_of_ne_zero nonzero) small fill
      rw [bind_of_ok fill, bind_of_ok (height_of_some hw₁), bind_of_ok (getWorkingTree_of_some hw₁)]
        at err
      cases err

/-- A failed `LoadWorkingTree`, by what its read returned. A failed read leaves the engine
as the read left it. A snapshot is loaded before the next tree is started, so it is finished
and the next tree's index or start wrapped to 0. Bytes that hold no JSON text leave the zero
record. -/
theorem loadWorkingTree_error {version : Nat} {e : MerkleError}
    (err : loadWorkingTree version m = .error e m') :
    (∀ e₁ m₁, dbGet (prefixedWorkingTreeKey version) m = .error e₁ m₁ →
      e = e₁ ∧ m' = m₁ ∧ m'.workingTree = m.workingTree) ∧
    (∀ w m₁, dbGet (prefixedWorkingTreeKey version) m = .ok (.treeInfo w) m₁ →
      w.done = true ∧ ((w.index + 1) % 2 ^ 64 = 0 ∨ (w.startLeafIndex + w.leafCount) % 2 ^ 64 = 0) ∧
      e = .invalidIndex ((w.index + 1) % 2 ^ 64) ((w.startLeafIndex + w.leafCount) % 2 ^ 64) ∧
      m' = { m₁ with workingTree := some w }) ∧
    (∀ b m₁, dbGet (prefixedWorkingTreeKey version) m = .ok (.raw b) m₁ → notJson b = true →
      e = .decode ∧ m' = { m₁ with workingTree := some TreeInfo.zero }) := by
  refine ⟨fun e₁ m₁ get => ?_, fun w m₁ get => ?_, fun b m₁ get _ => ?_⟩
  · simp only [loadWorkingTree] at err
    rw [bind_of_error get] at err
    cases err
    exact ⟨rfl, rfl, dbCall_error_tree get⟩
  · rw [loadWorkingTree_of_get get] at err
    simp only [unmarshalTreeInfo_treeInfo, Bool.false_eq_true, if_false] at err
    split at err
    · rename_i done
      obtain ⟨rfl, rfl, wrap⟩ := initializeWorkingTree_error err
      exact ⟨done, wrap, rfl, rfl⟩
    · cases err
  · rw [loadWorkingTree_of_get get] at err
    cases err
    exact ⟨rfl, rfl⟩

theorem insertLeaf_second_write_fails {store : Store Value} {t s : Nat}
    {ls : Nat → Option Bytes} {done : Bool} (d : Bytes) :
    insertLeaf nodeGeneratorFn d ⟨⟨store, [false, true]⟩, some ⟨t, s, 1, ls, done⟩⟩ =
      .error .store ⟨⟨store.set (prefixedNodeKey t 0 1) (.raw d), []⟩,
        some ⟨t, s, 1, Function.update ls 0 (some d), done⟩⟩ := by
  have loop : insertLeafLoop nodeGeneratorFn 0 1 d ⟨⟨store, [false, true]⟩, some ⟨t, s, 1, ls, done⟩⟩ =
      .error .store ⟨⟨store.set (prefixedNodeKey t 0 1) (.raw d), []⟩,
        some ⟨t, s, 1, Function.update ls 0 (some d), done⟩⟩ := by
    rw [insertLeafLoop, bind_of_ok (saveNode_of_healthy
        (m := ⟨⟨store, [false, true]⟩, some ⟨t, s, 1, ls, done⟩⟩) rfl rfl ..),
      bind_of_ok (getLastSibling_apply _), bind_of_ok (setLastSibling_apply ..),
      dif_neg (by decide : ¬ 1 % 2 = 0), insertLeafLoop]
    exact bind_of_error (saveNode_of_failing (by rfl) (by rfl) ..)
  rw [insertLeaf_apply nodeGeneratorFn rfl, bind_of_error loop]

/-- What a failed call leaves of the working tree, for every fault pattern. `InsertLeaf`
keeps the count, index, start and flag, and the last siblings off the carry path of the
count. `FinalizeWorkingTree` keeps the index and start and leaves the tree done; it failed in
the padding insert after the first `k < 2^H - n` returned, and those stay counted.
`LoadWorkingTree` leaves the tree as it was when its read fails; a snapshot it read is loaded,
finished, with the next tree's index or start wrapped to 0; bytes that hold no JSON text
leave the zero record. -/
theorem failed_call_leaves_tree (hw : m.workingTree = some wt) (small : wt.leafCount < 2 ^ 64) :
    (∀ d e m', insertLeaf nodeGeneratorFn d m = .error e m' →
      ∃ ls, m'.workingTree = some { wt with lastSiblings := ls } ∧
        ∀ h, ¬ 2 ^ h ∣ wt.leafCount + 1 → ls h = wt.lastSiblings h) ∧
    (∀ x e m', finalizeWorkingTree nodeGeneratorFn emptyRootHash x m = .error e m' →
      ∃ ls k m₁, k < 2 ^ heightOf wt.leafCount - wt.leafCount ∧
        insertLeafTimes nodeGeneratorFn ((wt.lastSiblings 0).getD []) k
          ⟨m.db, some { wt with done := true }⟩ = .ok () m₁ ∧
        insertLeaf nodeGeneratorFn ((wt.lastSiblings 0).getD []) m₁ = .error e m' ∧
        m'.workingTree =
          some { wt with lastSiblings := ls, leafCount := wt.leafCount + k, done := true }) ∧
    (∀ v e m', loadWorkingTree v m = .error e m' →
      (∀ e₁ m₁, dbGet (prefixedWorkingTreeKey v) m = .error e₁ m₁ →
        e = e₁ ∧ m' = m₁ ∧ m'.workingTree = m.workingTree) ∧
      (∀ w m₁, dbGet (prefixedWorkingTreeKey v) m = .ok (.treeInfo w) m₁ →
        w.done = true ∧ ((w.index + 1) % 2 ^ 64 = 0 ∨ (w.startLeafIndex + w.leafCount) % 2 ^ 64 = 0) ∧
        e = .invalidIndex ((w.index + 1) % 2 ^ 64) ((w.startLeafIndex + w.leafCount) % 2 ^ 64) ∧
        m' = { m₁ with workingTree := some w }) ∧
      (∀ b m₁, dbGet (prefixedWorkingTreeKey v) m = .ok (.raw b) m₁ → notJson b = true →
        e = .decode ∧ m' = { m₁ with workingTree := some TreeInfo.zero })) :=
  ⟨fun _ _ _ err => insertLeaf_error nodeGeneratorFn hw small err,
    fun _ _ _ err => finalizeWorkingTree_error_tree nodeGeneratorFn emptyRootHash hw small err,
    fun _ _ _ err => loadWorkingTree_error err⟩

/-- Tree 1 holding the leaf [1], on a store whose second call fails and which holds the
bytes [0] as snapshot 0. `InsertLeaf [2]` fails with [2] already swapped into level 0, the
levels off the carry path of 1 unchanged; `LoadWorkingTree 0` fails to decode and leaves the
zero record. -/
theorem failed_call_leaves_tree_one_leaf :
    (∃ m' ls, insertLeaf sortedConcat [2] ⟨⟨Store.empty.set (prefixedWorkingTreeKey 0) (.raw [0]),
        [false, true]⟩, some ⟨1, 1, 1, fun h => if h = 0 then some [1] else none, false⟩⟩ =
        .error .store m' ∧ m'.workingTree = some ⟨1, 1, 1, ls, false⟩ ∧
      ∀ h, ¬ 2 ^ h ∣ 1 + 1 → ls h = if h = 0 then some [1] else none) ∧
    ∃ m', loadWorkingTree 0 ⟨⟨Store.empty.set (prefixedWorkingTreeKey 0) (.raw [0]),
        [false, true]⟩, some ⟨1, 1, 1, fun h => if h = 0 then some [1] else none, false⟩⟩ =
        .error .decode m' ∧ m'.workingTree = some TreeInfo.zero :=
  have leaves := failed_call_leaves_tree sortedConcat [] (m := ⟨⟨Store.empty.set
    (prefixedWorkingTreeKey 0) (.raw [0]), [false, true]⟩,
    some ⟨1, 1, 1, fun h => if h = 0 then some [1] else none, false⟩⟩) rfl (by decide)
  have inserted := insertLeaf_second_write_fails sortedConcat [2]
  have loaded : loadWorkingTree 0 ⟨⟨Store.empty.set (prefixedWorkingTreeKey 0) (.raw [0]),
      [false, true]⟩, some ⟨1, 1, 1, fun h => if h = 0 then some [1] else none, false⟩⟩ =
      .error .decode _ := rfl
  let ⟨ls, tree, off⟩ := leaves.1 [2] .store _ inserted
  ⟨⟨_, ls, inserted, tree, off⟩, _, loaded,
    congrArg Merkle.workingTree ((leaves.2.2 0 .decode _ loaded).2.2 [0] _ rfl rfl).2⟩

/-- Tree 1 holding the one leaf [1], and `InsertLeaf [2]` whose parent write fails: the
failed call has already swapped [2] into level 0, so the retry pairs [2] with itself where
one successful call pairs [1] with [2]. -/
theorem insertLeaf_fault_then_retry :
    ∃ m₁ m₂ m₃,
      insertLeaf sortedConcat [2] ⟨⟨Store.empty, [false, true]⟩,
        some ⟨1, 1, 1, fun h => if h = 0 then some [1] else none, false⟩⟩ = .error .store m₁ ∧
      m₁.workingTree ≠ some ⟨1, 1, 1, fun h => if h = 0 then some [1] else none, false⟩ ∧
      insertLeaf sortedConcat [2] m₁ = .ok () m₂ ∧
      insertLeaf sortedConcat [2] ⟨⟨Store.empty, []⟩,
        some ⟨1, 1, 1, fun h => if h = 0 then some [1] else none, false⟩⟩ = .ok () m₃ ∧
      (m₂.workingTree.bind fun wt => wt.lastSiblings 1) = some [2, 2] ∧
      (m₃.workingTree.bind fun wt => wt.lastSiblings 1) = some [1, 2] := by
  obtain ⟨m₂, run₂, -⟩ := insertLeaf_healthy sortedConcat
    (m := ⟨⟨Store.empty.set (prefixedNodeKey 1 0 1) (.raw [2]), []⟩,
      some ⟨1, 1, 1, Function.update (fun h => if h = 0 then some [1] else none) 0 (some [2]), false⟩⟩)
    rfl rfl [2]
  obtain ⟨m₃, run₃, -⟩ := insertLeaf_healthy sortedConcat
    (m := ⟨⟨Store.empty, []⟩, some ⟨1, 1, 1, fun h => if h = 0 then some [1] else none, false⟩⟩)
    rfl rfl [2]
  refine ⟨_, m₂, m₃, insertLeaf_second_write_fails sortedConcat [2], fun same => ?_, run₂, run₃,
    ?_, ?_⟩
  · have level0 := congrArg (fun w => w.bind fun wt => wt.lastSiblings 0) same
    simp at level0
  · rw [(insertLeaf_ok sortedConcat rfl (by decide) [2] run₂).1]
    decide
  · rw [(insertLeaf_ok sortedConcat rfl (by decide) [2] run₃).1]
    decide

end Errors

end OpinitBots.Merkle
