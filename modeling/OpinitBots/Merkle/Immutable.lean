import OpinitBots.Merkle.Errors

/-! After a finalization. Neither `InsertLeaf` nor `fillLeaves` checks `Done`, so the engine
takes any later call on a finalized tree. Those calls write only at or after the count, so
the nodes of the finalized leaves stay; a full tree of `2^H` leaves needs no padding, and
finalizing it again returns the same root. A tree that needed padding is padded again from
the last siblings the first padding left, and its root changes. -/
namespace OpinitBots.Merkle

theorem heightOf_of_bounds {n H : Nat} (tall : 1 ≤ H) (lo : 2 ^ (H - 1) < n) (hi : n ≤ 2 ^ H) :
    heightOf n = H := by
  have two : 2 ≤ n := by have := Nat.one_le_two_pow (n := H - 1); omega
  rw [heightOf, if_neg (by omega)]
  have upper := Nat.size_le.mpr (show n - 1 < 2 ^ H by omega)
  have lower := Nat.lt_size.mpr (show 2 ^ (H - 1) ≤ n - 1 by omega)
  omega

section Later

variable (nodeGeneratorFn : NodeGeneratorFn) (emptyRootHash : EmptyRootHash) {m m' : Merkle}
  {wt : TreeInfo}

theorem saveWorkingTree_tree (version : Nat) :
    (stateOf (saveWorkingTree version m)).workingTree = m.workingTree := by
  simp only [saveWorkingTree]
  cases hw : m.workingTree with
  | none => rw [bind_of_error (getWorkingTree_of_none hw)]; exact hw
  | some wt =>
    rw [bind_of_ok (getWorkingTree_of_some hw), dbSet_apply]
    split <;> exact hw

theorem finalizeWorkingTree_of_fill {m₁ : Merkle} {w : TreeInfo} (hw : m.workingTree = some wt)
    (pos : 1 ≤ wt.leafCount)
    (fill : fillLeaves nodeGeneratorFn ⟨m.db, some { wt with done := true }⟩ = .ok () m₁)
    (hw₁ : m₁.workingTree = some w) (e : Bytes) :
    finalizeWorkingTree nodeGeneratorFn emptyRootHash e m =
      .ok ([⟨prefixedFinalizedTreeKey w.startLeafIndex, some (.finalizedTreeInfo
          ⟨w.index, heightOf w.leafCount, (w.lastSiblings (heightOf w.leafCount)).getD [],
            w.startLeafIndex, w.leafCount, e⟩)⟩], (w.lastSiblings (heightOf w.leafCount)).getD []) m₁ := by
  simp only [finalizeWorkingTree]
  rw [bind_of_ok (getWorkingTree_of_some hw), bind_of_ok (modifyWorkingTree_apply _),
    if_neg (by omega), hw, Option.map_some', bind_of_ok (rfl : (pure () : MerkleM Unit) _ = .ok () _),
    bind_of_ok fill, bind_of_ok (height_of_some hw₁), bind_of_ok (getWorkingTree_of_some hw₁)]
  rfl

/-- `FinalizeWorkingTree` on a full tree of `2^H ≥ 2` leaves pads nothing and writes
nothing: it marks the tree done and returns the last sibling of level `H` as the root. -/
theorem finalizeWorkingTree_of_full {H : Nat} (hw : m.workingTree = some wt)
    (full : wt.leafCount = 2 ^ H) (tall : 1 ≤ H) (small : wt.leafCount < 2 ^ 64) (e : Bytes) :
    finalizeWorkingTree nodeGeneratorFn emptyRootHash e m =
      .ok ([⟨prefixedFinalizedTreeKey wt.startLeafIndex, some (.finalizedTreeInfo
          ⟨wt.index, H, (wt.lastSiblings H).getD [], wt.startLeafIndex, wt.leafCount, e⟩)⟩],
        (wt.lastSiblings H).getD []) { m with workingTree := some { wt with done := true } } := by
  have height : heightOf wt.leafCount = H := by
    rw [full]
    exact heightOf_of_bounds tall (Nat.pow_lt_pow_right (by decide) (by omega)) le_rfl
  have pos : 1 ≤ wt.leafCount := full ▸ Nat.one_le_two_pow
  have marked : (⟨m.db, some { wt with done := true }⟩ : Merkle).workingTree =
      some { wt with done := true } := rfl
  have fill : fillLeaves nodeGeneratorFn ⟨m.db, some { wt with done := true }⟩ =
      .ok () ⟨m.db, some { wt with done := true }⟩ := by
    rw [fillLeaves_apply nodeGeneratorFn marked pos small, if_pos (by dsimp only; rw [height, full, Nat.sub_self])]
  rw [finalizeWorkingTree_of_fill nodeGeneratorFn emptyRootHash hw pos fill marked e]
  dsimp only
  rw [height]

/-- One call the bots may make on the engine after a finalization, whether it returns or
fails, short of `InitializeWorkingTree` and `LoadWorkingTree`: `InsertLeaf` below the last
uint64 count, `FinalizeWorkingTree` or `SaveWorkingTree`. -/
inductive LaterCall : Merkle → Merkle → Prop
  | insert {m : Merkle} {wt : TreeInfo} (data : Bytes) (hw : m.workingTree = some wt)
      (room : wt.leafCount + 1 < 2 ^ 64) :
      LaterCall m (stateOf (insertLeaf nodeGeneratorFn data m))
  | finalize {m : Merkle} (extraData : Bytes) :
      LaterCall m (stateOf (finalizeWorkingTree nodeGeneratorFn emptyRootHash extraData m))
  | save {m : Merkle} (version : Nat) : LaterCall m (stateOf (saveWorkingTree version m))

/-- The engine after the finalization of a full tree `t` of `2^H` leaves: it still works on
tree `t`, done, with at least `2^H` and fewer than 2^64 leaves; while the count is `2^H` the
last sibling of level `H` is the root's `top`; and the nodes of the `2^H` leaves are those
of `base`. -/
structure Settled (t H : Nat) (top : Option Bytes) (base : Store Value) (m : Merkle) : Prop where
  tree : ∃ w, m.workingTree = some w ∧ w.index = t ∧ w.done = true ∧ 2 ^ H ≤ w.leafCount ∧
    w.leafCount < 2 ^ 64 ∧ (w.leafCount = 2 ^ H → w.lastSiblings H = top)
  nodes : ∀ h j, j < 2 ^ H / 2 ^ h →
    m.db.store.get (prefixedNodeKey t h j) = base.get (prefixedNodeKey t h j)

theorem not_carry_full {H : Nat} (tall : 1 ≤ H) : ¬ 2 ^ H ∣ 2 ^ H + 1 := fun carry => by
  have one := Nat.le_of_dvd Nat.one_pos ((Nat.dvd_add_right (dvd_refl _)).mp carry)
  have two : 2 ^ 1 ≤ 2 ^ H := Nat.pow_le_pow_right (by decide) tall
  omega

variable {t H : Nat} {top : Option Bytes} {base : Store Value}

/-- Every later call keeps `Settled`: its writes lie at or after the count, which never
falls below `2^H`, and at the count `2^H` it changes no last sibling of level `H`. -/
theorem Settled.step (tall : 1 ≤ H) (settled : Settled t H top base m)
    (call : LaterCall nodeGeneratorFn emptyRootHash m m') : Settled t H top base m' := by
  obtain ⟨⟨w, hw, rfl, done, lo, hi, topAt⟩, nodes⟩ := settled
  have keep : ∀ W : Bytes → Prop, (∀ h j, j < 2 ^ H / 2 ^ h → ¬ W (prefixedNodeKey w.index h j)) →
      Agrees W m m' → ∀ h j, j < 2 ^ H / 2 ^ h →
        m'.db.store.get (prefixedNodeKey w.index h j) = base.get (prefixedNodeKey w.index h j) :=
    fun W off agrees h j hj => (agrees _ (off h j hj)).trans (nodes h j hj)
  have later : ∀ h j, j < 2 ^ H / 2 ^ h → ¬ LaterNode w.index w.leafCount (prefixedNodeKey w.index h j) :=
    fun h j hj => not_laterNode hi.le (lt_of_lt_of_le hj (Nat.div_le_div_right lo))
  cases call with
  | insert d hw₀ room =>
    obtain rfl := Option.some.inj (hw₀.symm.trans hw)
    refine ⟨?_, keep _ (fun h j hj path => later h j hj (path.later hi))
      (insertLeaf_frame nodeGeneratorFn hw hi d)⟩
    cases run : insertLeaf nodeGeneratorFn d m with
    | ok _ m₂ =>
      have hw₂ := (insertLeaf_ok nodeGeneratorFn hw hi d run).1
      rw [Nat.mod_eq_of_lt room] at hw₂
      exact ⟨_, hw₂, rfl, done, by dsimp only; omega, room, fun full => by dsimp only at full; omega⟩
    | error e m₂ =>
      obtain ⟨ls, hw₂, off⟩ := insertLeaf_error nodeGeneratorFn hw hi run
      exact ⟨_, hw₂, rfl, done, lo, hi, fun full =>
        (off H (by rw [full]; exact not_carry_full tall)).trans (topAt full)⟩
  | finalize e =>
    refine ⟨?_, keep _ later (finalizeWorkingTree_frame nodeGeneratorFn emptyRootHash e hw hi)⟩
    have pos : 1 ≤ w.leafCount := le_trans Nat.one_le_two_pow lo
    cases run : finalizeWorkingTree nodeGeneratorFn emptyRootHash e m with
    | ok r m₂ =>
      obtain ⟨ls, hw₂⟩ := finalizeWorkingTree_ok_tree nodeGeneratorFn emptyRootHash hw hi run
      refine ⟨_, hw₂, rfl, rfl, lo, hi, fun full => ?_⟩
      rw [finalizeWorkingTree_of_full nodeGeneratorFn emptyRootHash hw full tall hi e] at run
      cases run
      have same : w.lastSiblings = ls := congrArg TreeInfo.lastSiblings (Option.some.inj hw₂)
      show ls H = top
      rw [← same]
      exact topAt full
    | error e' m₂ =>
      obtain ⟨ls, k, -, lt, -, -, hw₂⟩ :=
        finalizeWorkingTree_error_tree nodeGeneratorFn emptyRootHash hw hi run
      have cap : 2 ^ heightOf w.leafCount ≤ 2 ^ 64 :=
        Nat.pow_le_pow_right (by decide) (heightOf_bounds pos hi).2
      refine ⟨_, hw₂, rfl, rfl, by dsimp only; omega, by dsimp only; omega, fun full => ?_⟩
      dsimp only at full
      rw [finalizeWorkingTree_of_full nodeGeneratorFn emptyRootHash hw (by omega) tall hi e] at run
      cases run
  | save v =>
    have hw₂ : (stateOf (saveWorkingTree v m)).workingTree = some w := by
      rw [saveWorkingTree_tree, hw]
    exact ⟨⟨w, hw₂, rfl, done, lo, hi, topAt⟩,
      keep _ (fun h j _ => prefixedNodeKey_ne_working _ _ _ _) (saveWorkingTree_frame v)⟩

/-- `Settled` holds along every run of later calls. -/
theorem Settled.run (tall : 1 ≤ H) (settled : Settled t H top base m)
    (steps : Relation.ReflTransGen (LaterCall nodeGeneratorFn emptyRootHash) m m') :
    Settled t H top base m' := by
  induction steps with
  | refl => exact settled
  | tail _ call ih => exact ih.step nodeGeneratorFn emptyRootHash tall call

/-- Once a full tree of `2^H ≥ 2` leaves is finalized, no run of later `InsertLeaf`,
`FinalizeWorkingTree` or `SaveWorkingTree` calls, each returning or failing, changes a
node of its `2^H` leaves, as long as no `InsertLeaf` starts at the last uint64 count; and
every `FinalizeWorkingTree` made while the count is still `2^H` (no `InsertLeaf` has
returned since) returns the same root and changes nothing. -/
theorem finalized_full_tree_stays {H : Nat} {e : Bytes} {kvs : List (RawKV Value)} {root : Bytes}
    {m₁ : Merkle} (hw : m.workingTree = some wt) (full : wt.leafCount = 2 ^ H) (tall : 1 ≤ H)
    (small : wt.leafCount < 2 ^ 64)
    (fin : finalizeWorkingTree nodeGeneratorFn emptyRootHash e m = .ok (kvs, root) m₁) :
    ∀ m', Relation.ReflTransGen (LaterCall nodeGeneratorFn emptyRootHash) m₁ m' →
      (∀ h j, h ≤ H → j < 2 ^ (H - h) → m'.db.store.get (prefixedNodeKey wt.index h j) =
        m₁.db.store.get (prefixedNodeKey wt.index h j)) ∧
      ∀ w, m'.workingTree = some w → w.leafCount = 2 ^ H →
        ∀ e', ∃ kvs', finalizeWorkingTree nodeGeneratorFn emptyRootHash e' m' = .ok (kvs', root) m' := by
  rw [finalizeWorkingTree_of_full nodeGeneratorFn emptyRootHash hw full tall small e] at fin
  cases fin
  intro m' steps
  have start : Settled wt.index H (wt.lastSiblings H) m.db.store
      { m with workingTree := some { wt with done := true } } :=
    ⟨⟨_, rfl, rfl, rfl, full.ge, small, fun _ => rfl⟩, fun _ _ _ => rfl⟩
  obtain ⟨⟨w, hw', -, done, -, small', topAt⟩, nodes⟩ :=
    start.run nodeGeneratorFn emptyRootHash tall steps
  refine ⟨fun h j le hj => nodes h j (by rwa [Nat.pow_div le (by decide)]), fun w' hw'' full' e' => ?_⟩
  obtain rfl := Option.some.inj (hw'.symm.trans hw'')
  have same : { m' with workingTree := some { w with done := true } } = m' := by
    obtain ⟨db, tree⟩ := m'
    obtain ⟨_, _, _, _, _⟩ := w
    cases hw'
    cases done
    rfl
  have again := finalizeWorkingTree_of_full nodeGeneratorFn emptyRootHash hw' full' tall small' e'
  rw [same, topAt full'] at again
  exact ⟨_, again⟩

/-- Tree 1 built on an empty engine from the leaves [1], [2] under `sortedConcat` and
finalized: its level-1 node [1, 2] is in the store, a later `InsertLeaf [3]` leaves it
alone, and after a `SaveWorkingTree` finalizing again returns the root [1, 2] and changes
nothing. -/
theorem finalized_full_tree_stays_two_leaves :
    ∃ m₀ kvs m₁, (do initializeWorkingTree 1 1; [[1], [2]].forM (insertLeaf sortedConcat))
        (⟨⟨Store.empty, []⟩, none⟩ : Merkle) = .ok () m₀ ∧
      finalizeWorkingTree sortedConcat [] [] m₀ = .ok (kvs, [1, 2]) m₁ ∧
      m₁.db.store.get (prefixedNodeKey 1 1 0) = some (.raw [1, 2]) ∧
      (stateOf (insertLeaf sortedConcat [3] m₁)).db.store.get (prefixedNodeKey 1 1 0) =
        some (.raw [1, 2]) ∧
      ∃ kvs', finalizeWorkingTree sortedConcat [] [] (stateOf (saveWorkingTree 0 m₁)) =
        .ok (kvs', [1, 2]) (stateOf (saveWorkingTree 0 m₁)) := by
  obtain ⟨m₀, insert, -⟩ := insertAll_healthy sortedConcat [[1], [2]]
    (m := ⟨⟨Store.empty, []⟩, some ⟨1, 1, 0, fun _ => none, false⟩⟩) rfl rfl
  obtain ⟨wt, hw, index, -, -, frontier⟩ :=
    (Frontier.fresh sortedConcat Store.empty 1 1).insertAll sortedConcat _ rfl (by decide) insert
  have full : wt.leafCount = 2 ^ 1 := frontier.count
  have small : wt.leafCount < 2 ^ 64 := by omega
  have node : m₀.db.store.get (prefixedNodeKey wt.index 1 0) = some (.raw [1, 2]) := by
    rw [frontier.nodes 1 0 (by decide)]
    rfl
  have key : prefixedNodeKey wt.index 1 0 = prefixedNodeKey 1 1 0 := by rw [index]
  have fin := finalizeWorkingTree_of_full sortedConcat [] hw full le_rfl small []
  rw [frontier.siblings 1] at fin
  have stays := finalized_full_tree_stays sortedConcat [] hw full le_rfl small fin
  have kept := (stays _ (.single (.insert [3] rfl (show wt.leafCount + 1 < 2 ^ 64 by omega)))).1
    1 0 le_rfl (by decide)
  rw [key] at kept node
  refine ⟨m₀, _, _, ?_, fin, node, kept.trans node,
    (stays _ (.single (.save 0))).2 _ (saveWorkingTree_tree 0) full []⟩
  rw [bind_of_ok (initializeWorkingTree_of_valid le_rfl le_rfl)]
  exact insert

/-- Three leaves [1], [2], [3] in tree 1 under `sortedConcat`: the first finalization pads
with [3] and returns [1, 2, 3, 3]; a second one pads position 3 again, now against the last
siblings of the padded tree, rewrites node (1, 2, 0) and returns [3, 3, 3, 3]. -/
theorem finalizeWorkingTree_twice_three_leaves :
    ∃ kvs₁ m₁ kvs₂ m₂, (do
        initializeWorkingTree 1 1
        [[1], [2], [3]].forM (insertLeaf sortedConcat)
        finalizeWorkingTree sortedConcat [] [])
        (⟨⟨Store.empty, []⟩, none⟩ : Merkle) = .ok (kvs₁, [1, 2, 3, 3]) m₁ ∧
      m₁.db.store.get (prefixedNodeKey 1 2 0) = some (.raw [1, 2, 3, 3]) ∧
      finalizeWorkingTree sortedConcat [] [] m₁ = .ok (kvs₂, [3, 3, 3, 3]) m₂ ∧
      m₂.db.store.get (prefixedNodeKey 1 2 0) = some (.raw [3, 3, 3, 3]) := by
  have height : heightOf 3 = 2 := heightOf_of_bounds (by decide) (by decide) (by decide)
  have len : ([[1], [2], [3]] : List Bytes).length = 3 := rfl
  -- the first finalization, over the frontier of [1], [2], [3]
  obtain ⟨m₀, insert, healthy₀, -⟩ := insertAll_healthy sortedConcat [[1], [2], [3]]
    (m := ⟨⟨Store.empty, []⟩, some ⟨1, 1, 0, fun _ => none, false⟩⟩) rfl rfl
  obtain ⟨wt₀, hw₀, index₀, -, -, frontier₀⟩ :=
    (Frontier.fresh sortedConcat Store.empty 1 1).insertAll sortedConcat _ rfl (by decide) insert
  rw [List.nil_append] at frontier₀
  obtain ⟨kvs₁, root₁, m₁, fin₁, healthy₁⟩ :=
    finalizeWorkingTree_healthy sortedConcat [] [] hw₀ healthy₀
  have first := finalizeWorkingTree_ok sortedConcat [] hw₀ frontier₀ (by decide) fin₁
  rw [if_neg (List.cons_ne_nil _ _)] at first
  obtain ⟨wt₁, hw₁, index₁, -, -, frontier₁, root₁_eq, -⟩ := first
  rw [len] at hw₁ frontier₁ root₁_eq
  rw [height] at frontier₁ root₁_eq
  have index : wt₁.index = 1 := index₁.trans index₀
  -- the second finalization pads position 3 with the last siblings of the padded tree
  have marked : (⟨m₁.db, some { { wt₁ with leafCount := 3 } with done := true }⟩ : Merkle).workingTree =
      some { { wt₁ with leafCount := 3 } with done := true } := rfl
  obtain ⟨m₃, pad, -, -⟩ := insertLeaf_healthy sortedConcat marked healthy₁ [3]
  obtain ⟨hw₃, nodes₃, -⟩ := insertLeaf_ok sortedConcat marked (by decide : 3 < 2 ^ 64) [3] pad
  have pads : [[3]].forM (insertLeaf sortedConcat)
      ⟨m₁.db, some { { wt₁ with leafCount := 3 } with done := true }⟩ = .ok () m₃ := by
    rw [List.forM_cons', bind_of_ok pad]
    rfl
  have sibling₀ : wt₁.lastSiblings 0 = some [3] := by rw [frontier₁.siblings 0]; rfl
  have sibling₁ : wt₁.lastSiblings 1 = some [3, 3] := by rw [frontier₁.siblings 1]; rfl
  have fill : fillLeaves sortedConcat ⟨m₁.db, some { { wt₁ with leafCount := 3 } with done := true }⟩ =
      .ok () { m₃ with workingTree := m₃.workingTree.map fun w =>
        { w with leafCount := (w.leafCount + 2 ^ 64 - 1) % 2 ^ 64 } } := by
    rw [fillLeaves_apply sortedConcat marked (by decide : 1 ≤ 3) (by decide : 3 < 2 ^ 64)]
    dsimp only
    rw [height, if_neg (by decide), sibling₀]
    show ([[3]].forM (insertLeaf sortedConcat) >>= _) _ = _
    rw [bind_of_ok pads, modifyWorkingTree_apply]
    rfl
  rw [hw₃] at fill
  have top : climb sortedConcat wt₁.lastSiblings [3] 2 = [3, 3, 3, 3] := by
    simp only [climb, sibling₀, sibling₁, Option.getD_some]
    rfl
  have count : ((3 + 1) % 2 ^ 64 + 2 ^ 64 - 1) % 2 ^ 64 = 3 := by decide
  have root₂ : carried sortedConcat wt₁.lastSiblings wt₁.lastSiblings [3] 3 0 2 = some [3, 3, 3, 3] := by
    show (if 0 ≤ 2 ∧ 2 ^ 2 ∣ 3 + 1 then _ else _) = _
    rw [if_pos (by decide), top]
  have second := finalizeWorkingTree_of_fill sortedConcat [] hw₁ (by decide : 1 ≤ 3) fill rfl []
  dsimp only at second
  rw [count, height, root₂] at second
  have root : root₁ = [1, 2, 3, 3] := root₁_eq.trans rfl
  subst root
  refine ⟨kvs₁, m₁, _, _, (bind_of_ok (initializeWorkingTree_of_valid le_rfl le_rfl)).trans
    ((bind_of_ok insert).trans fin₁), ?_, second, ?_⟩
  · rw [← index, frontier₁.nodes 2 0 (by decide)]
    rfl
  · have node := nodes₃ 2 (by decide : 2 ^ 2 ∣ 3 + 1)
    dsimp only at node
    rw [top, index] at node
    exact node

end Later

end OpinitBots.Merkle
