import OpinitBots.Merkle.Errors

/-! Recovery from a crash under store faults. After its snapshot is saved, a run may go on
through calls whose store calls fail anywhere, each failure stopping the run with the writes
made before it. Every such write is a node at or after the snapshot's count, so the store
keeps the snapshot and its frontier, and a fresh engine that loads the snapshot ends as a
run without the crash ends. -/
namespace OpinitBots.Merkle

section Runs

variable (nodeGeneratorFn : NodeGeneratorFn) (emptyRootHash : EmptyRootHash)

/-- The part of a run up to its snapshot: tree `(t, s)`, the leaves `A`, the save at `v`. -/
def savedRun (t s v : Nat) (A : List Bytes) : MerkleM Unit := do
  initializeWorkingTree t s
  A.forM (insertLeaf nodeGeneratorFn)
  saveWorkingTree v

/-- The part after it: the leaves `C` and, when `finalizeToo`, a finalization never
committed. -/
def afterSave (C : List Bytes) (finalizeToo : Bool) (e : Bytes) : MerkleM Unit := do
  C.forM (insertLeaf nodeGeneratorFn)
  if finalizeToo then
    let _ ← finalizeWorkingTree nodeGeneratorFn emptyRootHash e
    pure ()

theorem crashedRun_eq (t s v : Nat) (A C : List Bytes) (finalizeToo : Bool) (e : Bytes) :
    crashedRun nodeGeneratorFn emptyRootHash t s v A C finalizeToo e =
      (savedRun nodeGeneratorFn t s v A >>= fun _ =>
        afterSave nodeGeneratorFn emptyRootHash C finalizeToo e) := by
  simp only [crashedRun, savedRun, afterSave, bind_assoc]

end Runs

section Frames

variable (nodeGeneratorFn : NodeGeneratorFn) (emptyRootHash : EmptyRootHash) {m : Merkle}

/-- On a store that answers, the run up to the snapshot returns. The store then holds the
snapshot of the tree over `A` at `v` and its frontier, and besides the snapshot the run wrote
only nodes of tree `t`. -/
theorem savedRun_healthy {t s : Nat} (valid : 1 ≤ t ∧ 1 ≤ s) (v : Nat) (A : List Bytes)
    (healthy : m.db.faults = []) (small : A.length < 2 ^ 64) :
    ∃ mS wt, savedRun nodeGeneratorFn t s v A m = .ok () mS ∧ mS.db.faults = [] ∧
      mS.workingTree = some wt ∧ wt.index = t ∧ wt.startLeafIndex = s ∧ wt.done = false ∧ wt.leafCount = A.length ∧
      Frontier nodeGeneratorFn mS.db.store wt A ∧
      mS.db.store.get (prefixedWorkingTreeKey v) = some (.treeInfo wt) ∧
      ∀ k, ¬ NodeOf t k → k ≠ prefixedWorkingTreeKey v → mS.db.store.get k = m.db.store.get k := by
  have fresh : ({ m with workingTree := some ⟨t, s, 0, fun _ => none, false⟩ } : Merkle).workingTree =
      some ⟨t, s, 0, fun _ => none, false⟩ := rfl
  obtain ⟨mA, insertA, healthyA, -⟩ := insertAll_healthy nodeGeneratorFn A fresh healthy
  obtain ⟨wt, hwA, index, start, active, frontierA⟩ := Frontier.insertAll nodeGeneratorFn A fresh
    (Frontier.fresh nodeGeneratorFn m.db.store t s) (by simp; omega) insertA
  rw [List.nil_append] at frontierA
  have frameA := insertAll_frame nodeGeneratorFn A fresh (by simp; omega)
  rw [insertA] at frameA
  -- the save adds the snapshot and nothing else
  have saved : ∀ k, (mA.db.store.set (prefixedWorkingTreeKey v) (.treeInfo wt)).get k =
      if prefixedWorkingTreeKey v = k then some (.treeInfo wt) else mA.db.store.get k :=
    fun k => Store.get_set _ _ _ _
  refine ⟨{ mA with db := ⟨mA.db.store.set (prefixedWorkingTreeKey v) (.treeInfo wt), []⟩ }, wt,
    ?_, rfl, hwA, index, start, active, ?_, frontierA.frame fun h j _ => ?_, ?_,
    fun k off other => ?_⟩
  · rw [savedRun, bind_of_ok (initializeWorkingTree_of_valid valid.1 valid.2), bind_of_ok insertA]
    exact saveWorkingTree_healthy hwA healthyA
  · rw [frontierA.count, Nat.mod_eq_of_lt small]
  · rw [saved, if_neg (prefixedNodeKey_ne_working _ _ _ _).symm]
  · rw [saved, if_pos rfl]
  · rw [saved, if_neg (Ne.symm other)]
    exact frameA k fun later => off later.nodeOf

/-- Whatever its store calls return, the part after the snapshot writes only nodes at or
after the count it starts from. -/
theorem afterSave_frame (C : List Bytes) (finalizeToo : Bool) (e : Bytes) {wt : TreeInfo}
    (hw : m.workingTree = some wt) (room : wt.leafCount + C.length < 2 ^ 64) :
    Agrees (LaterNode wt.index wt.leafCount) m
      (stateOf (afterSave nodeGeneratorFn emptyRootHash C finalizeToo e m)) := by
  have inserts := insertAll_frame nodeGeneratorFn C hw room.le
  simp only [afterSave]
  cases run : C.forM (insertLeaf nodeGeneratorFn) m with
  | error e' m₁ => rw [bind_of_error run]; rwa [run] at inserts
  | ok _ m₁ =>
    rw [bind_of_ok run]
    rw [run] at inserts
    cases finalizeToo
    · exact inserts
    -- the finalization pads from the count after `C`, which is past the count before it
    obtain ⟨ls, hw₁⟩ := insertAll_count nodeGeneratorFn C hw (by omega) room.le run
    have finalize := finalizeWorkingTree_frame nodeGeneratorFn emptyRootHash e hw₁
      (Nat.mod_lt _ (by decide))
    have past : wt.leafCount ≤ (wt.leafCount + C.length) % 2 ^ 64 := by
      rw [Nat.mod_eq_of_lt room]
      omega
    have rest := inserts.trans (finalize.mono fun k later => later.mono past)
    rw [if_pos rfl]
    cases fin : finalizeWorkingTree nodeGeneratorFn emptyRootHash e m₁ with
    | error e' m₂ => rw [bind_of_error fin]; rwa [fin] at rest
    | ok r m₂ => rw [bind_of_ok fin]; rwa [fin] at rest

end Frames

section Recover

variable (nodeGeneratorFn : NodeGeneratorFn) (emptyRootHash : EmptyRootHash)

theorem ne_of_finalizedPrefix {k k' : Bytes} (pk : finalizedTreeKey.isPrefixOf k)
    (outside : finalizedTreeKey.isPrefixOf k' = false) : k ≠ k' := fun same => by
  rw [same, outside] at pk
  cases pk

/-- Recovery from any store that kept the snapshot. The store holds at `v` an unfinished
snapshot of tree `(t, s)` with the frontier of `A`, and differs from the store `m` started
on, whose finalized records leave the leaves of `A ++ B` unshadowed, only in nodes of tree
`t` and that snapshot. Then a fresh engine that loads `v`, inserts `B` and finalizes gives
the batch and root of the run inserting `A ++ B` on `m` without a crash, and the same
`GetProofs` answer for every leaf of `A ++ B`. -/
theorem resume_of_snapshot {t s v : Nat} {A B : List Bytes} {wt : TreeInfo} {m : Merkle}
    {store : Store Value} (valid : 1 ≤ t ∧ 1 ≤ s)
    (unshadowed : Unshadowed m.db.store s (A ++ B).length) (healthy : m.db.faults = [])
    (snap : store.get (prefixedWorkingTreeKey v) = some (.treeInfo wt))
    (index : wt.index = t) (start : wt.startLeafIndex = s) (active : wt.done = false)
    (frontier : Frontier nodeGeneratorFn store wt A)
    (kept : ∀ k, ¬ NodeOf t k → k ≠ prefixedWorkingTreeKey v → store.get k = m.db.store.get k)
    (e : Bytes) (room : s + (A ++ B).length ≤ 2 ^ 64) :
    ∃ r m₂ m₃, resumedRun nodeGeneratorFn emptyRootHash v B e ⟨⟨store, []⟩, none⟩ = .ok r m₂ ∧
      uninterruptedRun nodeGeneratorFn emptyRootHash t s (A ++ B) e m = .ok r m₃ ∧
      ∀ i, s ≤ i → i < s + (A ++ B).length →
        ∃ r', getProofs i m₂ = .ok r' m₂ ∧ getProofs i m₃ = .ok r' m₃ := by
  have small : (A ++ B).length < 2 ^ 64 := by omega
  obtain ⟨m₂, run₂, healthy₂, nodes₂, rest₂⟩ := insertAll_finalizeAndCommit nodeGeneratorFn
    emptyRootHash (m := ⟨⟨store, []⟩, some wt⟩) rfl frontier rfl B small e
  obtain ⟨m₃, run₃, healthy₃, nodes₃, rest₃⟩ := insertAll_finalizeAndCommit nodeGeneratorFn
    emptyRootHash (m := { m with workingTree := some ⟨t, s, 0, fun _ => none, false⟩ }) rfl
    (Frontier.fresh nodeGeneratorFn m.db.store t s) healthy (A ++ B) (by simpa using small) e
  rw [index, start] at run₂ rest₂
  rw [index] at nodes₂
  simp only [List.nil_append] at run₃ nodes₃ rest₃
  refine ⟨finalizedResult nodeGeneratorFn emptyRootHash t s (A ++ B) e, m₂, m₃, ?_, ?_,
    fun i lo hi => ?_⟩
  · rw [resumedRun, bind_of_ok (loadWorkingTree_of_snapshot (m := ⟨⟨store, []⟩, none⟩) rfl snap active)]
    exact run₂
  · rw [uninterruptedRun, bind_of_ok (initializeWorkingTree_of_valid valid.1 valid.2)]
    exact run₃
  -- the recovered store holds the finalized records of the original
  have ne : A ++ B ≠ [] := fun empty => by rw [empty, List.length_nil] at hi; omega
  have storeUnshadowed : Unshadowed store s (A ++ B).length := unshadowed.congr fun k pk =>
    kept k (not_nodeOf_of_finalized pk) (ne_of_finalizedPrefix pk (working_not_finalized v))
  rw [finalizedResult_of_ne nodeGeneratorFn emptyRootHash ne] at rest₂ rest₃
  exact ⟨_, getProofs_of_commit nodeGeneratorFn ⟨t, s, A ++ B, e, _⟩ healthy₂ storeUnshadowed
    (nodes₂ ne) (fun k pk => rest₂ k (not_nodeOf_of_finalized pk)) valid.2 room lo hi,
    getProofs_of_commit nodeGeneratorFn ⟨t, s, A ++ B, e, _⟩ healthy₃ unshadowed (nodes₃ ne)
    (fun k pk => rest₃ k (not_nodeOf_of_finalized pk)) valid.2 room lo hi⟩

/-- Crash and resume under store faults. A run saves tree `(t, s)` after `A` at version `v`
on a store that answers and whose finalized records, those of earlier trees included, leave
the leaves of `A ++ B` unshadowed, then goes on with `C` and possibly an uncommitted finalization
while its store calls fail wherever `faults` says, the first failure stopping it with the
writes made before. A fresh engine on the store left behind that loads `v`, inserts `B` and
finalizes gives the batch and root of the run inserting `A ++ B` without a crash, and the
same `GetProofs` answer for every leaf of `A ++ B`. -/
theorem resume_after_faulty_crash {t s : Nat} (valid : 1 ≤ t ∧ 1 ≤ s) (v : Nat)
    (A C B : List Bytes) (finalizeToo : Bool) (e' e : Bytes) (faults : List Bool) {m : Merkle}
    (unshadowed : Unshadowed m.db.store s (A ++ B).length) (healthy : m.db.faults = []) (crashRoom : A.length + C.length < 2 ^ 64)
    (room : s + (A ++ B).length ≤ 2 ^ 64) :
    ∃ mS r m₂ m₃, savedRun nodeGeneratorFn t s v A m = .ok () mS ∧
      resumedRun nodeGeneratorFn emptyRootHash v B e
        ⟨⟨(stateOf (afterSave nodeGeneratorFn emptyRootHash C finalizeToo e'
          { mS with db := ⟨mS.db.store, faults⟩ })).db.store, []⟩, none⟩ = .ok r m₂ ∧
      uninterruptedRun nodeGeneratorFn emptyRootHash t s (A ++ B) e m = .ok r m₃ ∧
      ∀ i, s ≤ i → i < s + (A ++ B).length →
        ∃ r', getProofs i m₂ = .ok r' m₂ ∧ getProofs i m₃ = .ok r' m₃ := by
  obtain ⟨mS, wt, saved, -, hw, index, start, active, count, frontier, snap, kept⟩ :=
    savedRun_healthy nodeGeneratorFn valid v A healthy (by omega)
  -- under any faults the rest writes only nodes at or after the snapshot's count
  have frame := afterSave_frame nodeGeneratorFn emptyRootHash C finalizeToo e'
    (m := { mS with db := ⟨mS.db.store, faults⟩ }) hw (by omega)
  rw [count] at frame
  have working : ¬ LaterNode wt.index A.length (prefixedWorkingTreeKey v) :=
    fun ⟨_, _, _, _, _, same⟩ => prefixedNodeKey_ne_working _ _ _ _ same.symm
  obtain ⟨r, m₂, m₃, resumed, whole, proofs⟩ := resume_of_snapshot nodeGeneratorFn emptyRootHash
    valid unshadowed healthy ((frame _ working).trans snap) index start active
    (frame.frontier frontier (by omega))
    (fun k off other => (frame k fun later => off (index ▸ later.nodeOf)).trans (kept k off other))
    e room
  exact ⟨mS, r, m₂, m₃, saved, resumed, whole, proofs⟩

/-- A store that holds the record of an earlier tree 1 over one leaf at leaf 1; tree 2 from
leaf 2 saves [1] at version 0, then [7] and [8] with the second store call after the snapshot
failing, and a finalization never reached; [2] after the reload. -/
theorem resume_after_faulty_crash_two_leaves :
    ∃ mS r m₂ m₃, savedRun sortedConcat 2 2 0 [[1]] ⟨⟨Store.empty.set (prefixedFinalizedTreeKey 1)
        (.finalizedTreeInfo ⟨1, 0, [5], 1, 1, []⟩), []⟩, none⟩ = .ok () mS ∧
      resumedRun sortedConcat [] 0 [[2]] []
        ⟨⟨(stateOf (afterSave sortedConcat [] [[7], [8]] true []
          { mS with db := ⟨mS.db.store, [false, true]⟩ })).db.store, []⟩, none⟩ = .ok r m₂ ∧
      uninterruptedRun sortedConcat [] 2 2 ([[1]] ++ [[2]]) [] ⟨⟨Store.empty.set
        (prefixedFinalizedTreeKey 1) (.finalizedTreeInfo ⟨1, 0, [5], 1, 1, []⟩), []⟩, none⟩ =
        .ok r m₃ ∧
      ∀ i, 2 ≤ i → i < 2 + ([[1]] ++ [[2]]).length →
        ∃ r', getProofs i m₂ = .ok r' m₂ ∧ getProofs i m₃ = .ok r' m₃ :=
  resume_after_faulty_crash sortedConcat [] (by decide) 0 [[1]] [[7], [8]] [[2]] true [] []
    [false, true] (m := ⟨⟨Store.empty.set (prefixedFinalizedTreeKey 1)
      (.finalizedTreeInfo ⟨1, 0, [5], 1, 1, []⟩), []⟩, none⟩)
    (Unshadowed.set (fun _ _ _ found => by cases found) (by decide) (.inl (by decide))
      (by decide) _)
    rfl (by decide) (by decide)

end Recover

end OpinitBots.Merkle
