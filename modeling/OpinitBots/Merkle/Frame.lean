import OpinitBots.Merkle.Finalize

/-! What each engine call may change, whether it returns or fails: the node records it can
write, counted by leaf position, and the fields of the working tree it can touch. A failed
call keeps every write made before the failing store call. -/
namespace OpinitBots.Merkle

section Keys

/-- The node records of tree `t` at or after leaf position `p`, on each level a tree of
uint64 positions has. -/
def LaterNode (t p : Nat) (k : Bytes) : Prop :=
  ∃ h j, h ≤ 64 ∧ j < 2 ^ 64 ∧ p / 2 ^ h ≤ j ∧ k = prefixedNodeKey t h j

theorem LaterNode.mono {t p q : Nat} {k : Bytes} (le : p ≤ q) (later : LaterNode t q k) :
    LaterNode t p k :=
  let ⟨h, j, hh, hj, after, eq⟩ := later
  ⟨h, j, hh, hj, le_trans (Nat.div_le_div_right le) after, eq⟩

theorem PathKey.later {t p h : Nat} {k : Bytes} (small : p < 2 ^ 64) (path : PathKey t p h k) :
    LaterNode t p k :=
  let ⟨h', _, div, eq⟩ := path
  ⟨h', _, carry_le div small, Nat.lt_of_le_of_lt (Nat.div_le_self _ _) small, le_rfl, eq⟩

theorem not_laterNode {t p h j : Nat} (small : p ≤ 2 ^ 64) (hj : j < p / 2 ^ h) :
    ¬ LaterNode t p (prefixedNodeKey t h j) := by
  rintro ⟨h', j', hh', hj', after, eq⟩
  have := level_le small hj
  obtain ⟨rfl, rfl⟩ := (prefixedNodeKey_inj (by omega) (by omega)
    (Nat.lt_of_lt_of_le hj (Nat.le_trans (Nat.div_le_self _ _) small)) hj').mp eq
  omega

/-- Between `m` and `m'` the store changed only at keys satisfying `W`. -/
def Agrees (W : Bytes → Prop) (m m' : Merkle) : Prop :=
  ∀ k, ¬ W k → m'.db.store.get k = m.db.store.get k

theorem Agrees.trans {W : Bytes → Prop} {m₁ m₂ m₃ : Merkle} (first : Agrees W m₁ m₂)
    (second : Agrees W m₂ m₃) : Agrees W m₁ m₃ :=
  fun k off => (second k off).trans (first k off)

theorem Agrees.mono {W W' : Bytes → Prop} {m m' : Merkle} (sub : ∀ k, W k → W' k)
    (agrees : Agrees W m m') : Agrees W' m m' :=
  fun k off => agrees k fun w => off (sub k w)

theorem Agrees.of_store {W : Bytes → Prop} {m m' : Merkle} (same : m'.db.store = m.db.store) :
    Agrees W m m' :=
  fun k _ => by rw [same]

/-- The frontier reads only the complete nodes, so a store that agrees on them keeps it. -/
theorem Frontier.frame {nodeGeneratorFn : NodeGeneratorFn} {store store' : Store Value}
    {wt : TreeInfo} {leaves : List Bytes} (frontier : Frontier nodeGeneratorFn store wt leaves)
    (same : ∀ h j, j < leaves.length / 2 ^ h →
      store'.get (prefixedNodeKey wt.index h j) = store.get (prefixedNodeKey wt.index h j)) :
    Frontier nodeGeneratorFn store' wt leaves :=
  ⟨frontier.count, frontier.siblings, fun h j hj => (same h j hj).trans (frontier.nodes h j hj)⟩

theorem Agrees.frontier {nodeGeneratorFn : NodeGeneratorFn} {m m' : Merkle} {wt : TreeInfo}
    {leaves : List Bytes} (agrees : Agrees (LaterNode wt.index leaves.length) m m')
    (frontier : Frontier nodeGeneratorFn m.db.store wt leaves) (small : leaves.length ≤ 2 ^ 64) :
    Frontier nodeGeneratorFn m'.db.store wt leaves :=
  frontier.frame fun _ _ hj => agrees _ (not_laterNode small hj)

end Keys

section Loop

variable (nodeGeneratorFn : NodeGeneratorFn)

theorem insertLeafLoop_frame {p : Nat} (small : p < 2 ^ 64) :
    ∀ (h : Nat) (x : Bytes) {m : Merkle} {wt : TreeInfo}, 2 ^ h ∣ p + 1 →
      m.workingTree = some wt →
      Agrees (PathKey wt.index p h) m (stateOf (insertLeafLoop nodeGeneratorFn h (p / 2 ^ h) x m)) ∧
        ∃ ls, (stateOf (insertLeafLoop nodeGeneratorFn h (p / 2 ^ h) x m)).workingTree =
            some { wt with lastSiblings := ls } ∧
          ∀ h', ¬ (h ≤ h' ∧ 2 ^ h' ∣ p + 1) → ls h' = wt.lastSiblings h'
  | h, x, m, wt, path, hw => by
    have written : ∀ k, ¬ PathKey wt.index p h k → prefixedNodeKey wt.index h (p / 2 ^ h) ≠ k :=
      fun k off eq => off ⟨h, le_rfl, path, eq.symm⟩
    rw [insertLeafLoop]
    cases healthy : m.db.failing
    case true =>
      rw [bind_of_error (saveNode_of_failing hw healthy ..)]
      exact ⟨fun k _ => rfl, wt.lastSiblings, hw, fun _ _ => rfl⟩
    rw [bind_of_ok (saveNode_of_healthy hw healthy ..), bind_of_ok (getLastSibling_apply _),
      bind_of_ok (setLastSibling_apply ..)]
    simp only [hw, Option.some_bind, Option.map_some']
    have kept : ∀ h', ¬ (h ≤ h' ∧ 2 ^ h' ∣ p + 1) →
        Function.update wt.lastSiblings h (some x) h' = wt.lastSiblings h' := fun h' off =>
      Function.update_noteq (fun eq => off ⟨eq.ge, eq ▸ path⟩) _ _
    split
    · refine ⟨fun k off => ?_, _, rfl, kept⟩
      simp [written k off]
    · have next : 2 ^ (h + 1) ∣ p + 1 := (carry_next path).mpr (by omega)
      rw [← div_pow_succ]
      obtain ⟨frame, ls, hw', agree⟩ := insertLeafLoop_frame small (h + 1) _ next
        (m := ⟨⟨m.db.store.set (prefixedNodeKey wt.index h (p / 2 ^ h)) (.raw x), m.db.faults.tail⟩,
          some { wt with lastSiblings := Function.update wt.lastSiblings h (some x) }⟩) rfl
      refine ⟨fun k off => ?_, ls, hw', fun h' off' => ?_⟩
      · rw [frame k fun later => off (pathKey_succ later)]
        simp [written k off]
      · rw [agree h' fun ⟨le, p'⟩ => off' ⟨by omega, p'⟩]
        exact kept h' off'
termination_by h => 64 - h
decreasing_by have := carry_le next small; omega

variable {m m' : Merkle} {wt : TreeInfo}

theorem insertLeaf_frame (hw : m.workingTree = some wt) (small : wt.leafCount < 2 ^ 64)
    (x : Bytes) :
    Agrees (PathKey wt.index wt.leafCount 0) m (stateOf (insertLeaf nodeGeneratorFn x m)) := by
  have loop := (insertLeafLoop_frame nodeGeneratorFn small 0 x (by simp) hw).1
  simp only [Nat.pow_zero, Nat.div_one] at loop
  rw [insertLeaf_apply nodeGeneratorFn hw]
  cases run : insertLeafLoop nodeGeneratorFn 0 wt.leafCount x m with
  | error e m₁ => rw [bind_of_error run]; rwa [run] at loop
  | ok _ m₁ =>
    rw [bind_of_ok run, modifyWorkingTree_apply]
    rw [run] at loop
    exact loop

/-- A failed `InsertLeaf` keeps the count, index, start and flag; the last siblings may
have changed on the carry path of the count. -/
theorem insertLeaf_error (hw : m.workingTree = some wt) (small : wt.leafCount < 2 ^ 64)
    {x : Bytes} {e : MerkleError} (err : insertLeaf nodeGeneratorFn x m = .error e m') :
    ∃ ls, m'.workingTree = some { wt with lastSiblings := ls } ∧
      ∀ h, ¬ 2 ^ h ∣ wt.leafCount + 1 → ls h = wt.lastSiblings h := by
  obtain ⟨-, ls, hw', agree⟩ := insertLeafLoop_frame nodeGeneratorFn small 0 x (by simp) hw
  simp only [Nat.pow_zero, Nat.div_one] at hw'
  rw [insertLeaf_apply nodeGeneratorFn hw] at err
  cases run : insertLeafLoop nodeGeneratorFn 0 wt.leafCount x m with
  | error e' m₁ =>
    rw [bind_of_error run] at err
    cases err
    rw [run] at hw'
    exact ⟨ls, hw', fun h off => agree h fun ⟨_, p⟩ => off p⟩
  | ok _ m₁ => rw [bind_of_ok run, modifyWorkingTree_apply] at err; cases err

theorem insertAll_frame (xs : List Bytes) : ∀ {m : Merkle} {wt : TreeInfo},
    m.workingTree = some wt → wt.leafCount + xs.length ≤ 2 ^ 64 →
      Agrees (LaterNode wt.index wt.leafCount) m
        (stateOf (xs.forM (insertLeaf nodeGeneratorFn) m)) := by
  induction xs with
  | nil => exact fun _ _ k _ => rfl
  | cons x xs ih =>
    intro m wt hw room
    have small : wt.leafCount < 2 ^ 64 := by simp at room; omega
    have first := (insertLeaf_frame nodeGeneratorFn hw small x).mono fun k => PathKey.later small
    rw [List.forM_cons']
    cases run : insertLeaf nodeGeneratorFn x m with
    | error e m₁ => rw [bind_of_error run]; rwa [run] at first
    | ok _ m₁ =>
      rw [bind_of_ok run]
      rw [run] at first
      obtain ⟨hw₁, -⟩ := insertLeaf_ok nodeGeneratorFn hw small x run
      cases xs with
      | nil => exact first
      | cons y ys =>
        have below : wt.leafCount + 1 < 2 ^ 64 := by simp at room; omega
        have rest := ih hw₁ (by simp only [List.length_cons] at room ⊢; omega)
        simp only [Nat.mod_eq_of_lt below] at rest
        exact first.trans (rest.mono fun k => LaterNode.mono (Nat.le_succ _))

theorem fillLeaves_frame (hw : m.workingTree = some wt) (pos : 1 ≤ wt.leafCount)
    (small : wt.leafCount < 2 ^ 64) :
    Agrees (LaterNode wt.index wt.leafCount) m (stateOf (fillLeaves nodeGeneratorFn m)) := by
  obtain ⟨fits, le⟩ := heightOf_bounds pos small
  have cap : 2 ^ heightOf wt.leafCount ≤ 2 ^ 64 := Nat.pow_le_pow_right (by decide) le
  have pad := insertAll_frame nodeGeneratorFn (List.replicate (2 ^ heightOf wt.leafCount -
    wt.leafCount) ((wt.lastSiblings 0).getD [])) hw (by simp only [List.length_replicate]; omega)
  rw [fillLeaves_apply nodeGeneratorFn hw pos small]
  split
  · exact fun k _ => rfl
  · cases run : (List.replicate (2 ^ heightOf wt.leafCount - wt.leafCount)
        ((wt.lastSiblings 0).getD [])).forM (insertLeaf nodeGeneratorFn) m with
    | error e m₁ => rw [bind_of_error run]; rwa [run] at pad
    | ok _ m₁ => rw [bind_of_ok run, modifyWorkingTree_apply]; rwa [run] at pad

theorem finalizeWorkingTree_frame (emptyRootHash : EmptyRootHash) (e : Bytes)
    (hw : m.workingTree = some wt) (small : wt.leafCount < 2 ^ 64) :
    Agrees (LaterNode wt.index wt.leafCount) m
      (stateOf (finalizeWorkingTree nodeGeneratorFn emptyRootHash e m)) := by
  simp only [finalizeWorkingTree]
  rw [bind_of_ok (getWorkingTree_of_some hw), bind_of_ok (modifyWorkingTree_apply _), hw,
    Option.map_some']
  split
  · exact fun k _ => rfl
  · rename_i nonzero
    rw [pure_bind_apply]
    have fill := fillLeaves_frame nodeGeneratorFn (m := ⟨m.db, some { wt with done := true }⟩)
      rfl (Nat.one_le_iff_ne_zero.mpr nonzero) small
    cases run : fillLeaves nodeGeneratorFn ⟨m.db, some { wt with done := true }⟩ with
    | error e' m₁ => rw [bind_of_error run]; rwa [run] at fill
    | ok _ m₁ =>
      rw [bind_of_ok run]
      rw [run] at fill
      cases hw₁ : m₁.workingTree with
      | none => rw [bind_of_error (height_of_none hw₁)]; exact fill
      | some wt₁ =>
        rw [bind_of_ok (height_of_some hw₁), bind_of_ok (getWorkingTree_of_some hw₁)]
        exact fill

end Loop

section Snapshots

variable {m m' : Merkle} {wt : TreeInfo}

theorem saveWorkingTree_frame (version : Nat) :
    Agrees (· = prefixedWorkingTreeKey version) m (stateOf (saveWorkingTree version m)) := by
  simp only [saveWorkingTree]
  cases hw : m.workingTree with
  | none => rw [bind_of_error (getWorkingTree_of_none hw)]; exact fun k _ => rfl
  | some wt =>
    rw [bind_of_ok (getWorkingTree_of_some hw), dbSet_apply]
    split
    · exact fun k _ => rfl
    · intro k off
      simp [Ne.symm off]

theorem saveWorkingTree_ok (version : Nat) (hw : m.workingTree = some wt)
    (run : saveWorkingTree version m = .ok () m') :
    m' = { m with db := ⟨m.db.store.set (prefixedWorkingTreeKey version) (.treeInfo wt),
      m.db.faults.tail⟩ } := by
  simp only [saveWorkingTree] at run
  rw [bind_of_ok (getWorkingTree_of_some hw), dbSet_apply] at run
  split at run
  · cases run
  · cases run
    rfl

theorem dbGet_store (k : Bytes) : (stateOf (dbGet k m)).db.store = m.db.store := by
  unfold dbGet dbCall
  split
  · rfl
  · cases h : m.db.store.get k <;> simp [h]

theorem loadWorkingTree_of_get {version : Nat} {data : Value} {m₁ : Merkle}
    (get : dbGet (prefixedWorkingTreeKey version) m = .ok data m₁) :
    loadWorkingTree version m =
      if (unmarshalTreeInfo data).2 then
        .error .decode { m₁ with workingTree := some (unmarshalTreeInfo data).1 }
      else if (unmarshalTreeInfo data).1.done then
        initializeWorkingTree (((unmarshalTreeInfo data).1.index + 1) % 2 ^ 64)
          (((unmarshalTreeInfo data).1.startLeafIndex + (unmarshalTreeInfo data).1.leafCount) % 2 ^ 64)
          { m₁ with workingTree := some (unmarshalTreeInfo data).1 }
      else .ok () { m₁ with workingTree := some (unmarshalTreeInfo data).1 } := by
  simp only [loadWorkingTree]
  rw [bind_of_ok get]
  obtain ⟨w, failed⟩ := unmarshalTreeInfo data
  cases failed
  · rw [bind_of_ok (rfl : (modify fun m : Merkle => { m with workingTree := some w } : MerkleM Unit)
      m₁ = .ok () { m₁ with workingTree := some w })]
    simp only [Bool.false_eq_true, if_false]
    rw [pure_bind_apply]
    split <;> rfl
  · rfl

theorem loadWorkingTree_ok {version : Nat} {w : TreeInfo}
    (read : m.db.store.get (prefixedWorkingTreeKey version) = some (.treeInfo w))
    (run : loadWorkingTree version m = .ok () m') :
    m'.db.store = m.db.store ∧
      if w.done then 1 ≤ (w.index + 1) % 2 ^ 64 ∧
        1 ≤ (w.startLeafIndex + w.leafCount) % 2 ^ 64 ∧
        m'.workingTree = some ⟨(w.index + 1) % 2 ^ 64,
          (w.startLeafIndex + w.leafCount) % 2 ^ 64, 0, fun _ => none, false⟩
      else m'.workingTree = some w := by
  cases get : dbGet (prefixedWorkingTreeKey version) m with
  | error e m₁ =>
    simp only [loadWorkingTree] at run
    rw [bind_of_error get] at run
    cases run
  | ok data m₁ =>
    rw [loadWorkingTree_of_get get] at run
    obtain ⟨s, op, rfl⟩ := dbCall_ok get
    simp only [read, Except.ok.injEq, Prod.mk.injEq] at op
    obtain ⟨rfl, rfl⟩ := op
    simp only [unmarshalTreeInfo_treeInfo, Bool.false_eq_true, if_false] at run
    split at run
    · rename_i done
      obtain ⟨i1, i2, rfl⟩ := initializeWorkingTree_ok run
      rw [if_pos done]
      exact ⟨rfl, i1, i2, rfl⟩
    · rename_i active
      cases run
      rw [if_neg active]
      exact ⟨rfl, rfl⟩

end Snapshots

end OpinitBots.Merkle
