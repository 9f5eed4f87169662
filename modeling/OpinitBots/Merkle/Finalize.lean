import OpinitBots.Merkle.Insert

/-! `FinalizeWorkingTree`: `fillLeaves` inserts the last leaf until the tree has `2^H`
leaves and puts the count back; the root is then the last sibling of level `H`, and the
record the caller commits describes the unpadded tree. -/
namespace OpinitBots.Merkle

section Height

theorem heightOf_bounds {n : Nat} (pos : 1 ≤ n) (small : n < 2 ^ 64) :
    n ≤ 2 ^ heightOf n ∧ heightOf n ≤ 64 := by
  unfold heightOf
  split
  · obtain rfl : n = 1 := by omega
    decide
  · exact ⟨by have := Nat.lt_size_self (n - 1); omega, Nat.size_le.mpr (by omega)⟩

theorem numRestLeaves_eq {n : Nat} (pos : 1 ≤ n) (small : n < 2 ^ 64) :
    (2 ^ heightOf n % 2 ^ 64 + 2 ^ 64 - n) % 2 ^ 64 = 2 ^ heightOf n - n ∧
      (2 ^ heightOf n % 2 ^ 64 + 2 ^ 64 - (2 ^ heightOf n - n)) % 2 ^ 64 = n := by
  obtain ⟨fits, le⟩ := heightOf_bounds pos small
  rcases Nat.lt_or_eq_of_le le with lt | eq
  · have below : 2 ^ heightOf n < 2 ^ 64 := Nat.pow_lt_pow_right (by decide) lt
    rw [Nat.mod_eq_of_lt below]
    omega
  · rw [eq] at fits ⊢
    simp only [Nat.mod_self, Nat.zero_add]
    omega

end Height

section Fill

variable (nodeGeneratorFn : NodeGeneratorFn) {m m' : Merkle} {wt : TreeInfo}

theorem height_of_some (hw : m.workingTree = some wt) : height m = .ok (heightOf wt.leafCount) m := by
  simp only [height]
  rw [bind_of_ok (getWorkingTree_of_some hw)]
  rfl

theorem height_of_none (hw : m.workingTree = none) :
    height m = .error .workingTreeNotInitialized m := by
  simp only [height]
  rw [bind_of_error (getWorkingTree_of_none hw)]

theorem insertLeafTimes_eq (x : Bytes) :
    ∀ k, insertLeafTimes nodeGeneratorFn x k = (List.replicate k x).forM (insertLeaf nodeGeneratorFn)
  | 0 => rfl
  | k + 1 => by
    simp only [insertLeafTimes, List.replicate_succ, List.forM_cons', insertLeafTimes_eq x k]

/-- `fillLeaves` over `1 ≤ p < 2^64` leaves: the last sibling of level 0 inserted
`2^H - p` times, nothing when the tree is full, then the count put back. -/
theorem fillLeaves_apply (hw : m.workingTree = some wt) (pos : 1 ≤ wt.leafCount)
    (small : wt.leafCount < 2 ^ 64) :
    fillLeaves nodeGeneratorFn m =
      if 2 ^ heightOf wt.leafCount - wt.leafCount = 0 then .ok () m
      else ((List.replicate (2 ^ heightOf wt.leafCount - wt.leafCount)
          ((wt.lastSiblings 0).getD [])).forM (insertLeaf nodeGeneratorFn) >>= fun _ =>
        modifyWorkingTree fun w => { w with leafCount :=
          (w.leafCount + 2 ^ 64 - (2 ^ heightOf wt.leafCount - wt.leafCount)) % 2 ^ 64 }) m := by
  have rest := (numRestLeaves_eq pos small).1
  simp only [fillLeaves]
  rw [bind_of_ok (getWorkingTree_of_some hw), bind_of_ok (height_of_some hw)]
  simp only [rest]
  split
  · rfl
  · rw [pure_bind_apply, insertLeafTimes_eq]

theorem lastLeaf_eq {store : Store Value} {leaves : List Bytes}
    (frontier : Frontier nodeGeneratorFn store wt leaves) (pos : 1 ≤ leaves.length) :
    (wt.lastSiblings 0).getD [] = leaves.getLastD [] := by
  rw [frontier.siblings 0, if_pos (by simpa using pos)]
  simp [nodeAt, leafOf, List.getLast?_eq_getElem?]

theorem fillLeaves_ok {leaves : List Bytes} (hw : m.workingTree = some wt)
    (frontier : Frontier nodeGeneratorFn m.db.store wt leaves) (pos : 1 ≤ leaves.length)
    (small : leaves.length < 2 ^ 64) (run : fillLeaves nodeGeneratorFn m = .ok () m') :
    ∃ wt', m'.workingTree = some { wt' with leafCount := leaves.length } ∧
      wt'.index = wt.index ∧ wt'.startLeafIndex = wt.startLeafIndex ∧ wt'.done = wt.done ∧
      Frontier nodeGeneratorFn m'.db.store wt' (padLeaves leaves (heightOf leaves.length)) := by
  have count : wt.leafCount = leaves.length := by rw [frontier.count, Nat.mod_eq_of_lt small]
  have restore := (numRestLeaves_eq pos small).2
  obtain ⟨fits, le⟩ := heightOf_bounds pos small
  have cap : 2 ^ heightOf leaves.length ≤ 2 ^ 64 := Nat.pow_le_pow_right (by decide) le
  rw [fillLeaves_apply nodeGeneratorFn hw (by omega) (by omega),
    lastLeaf_eq nodeGeneratorFn frontier pos, count] at run
  split at run
  · rename_i full
    cases run
    refine ⟨wt, by rw [hw, ← count], rfl, rfl, rfl, ?_⟩
    simpa [padLeaves, full] using frontier
  · obtain ⟨_, m₁, padding, restored⟩ := bind_eq_ok run
    rw [modifyWorkingTree_apply] at restored
    cases restored
    obtain ⟨wt', hw', index, start, done, frontier'⟩ :=
      frontier.insertAll nodeGeneratorFn _ hw (by simp only [List.length_replicate]; omega) padding
    have count' : wt'.leafCount = 2 ^ heightOf leaves.length % 2 ^ 64 := by
      rw [frontier'.count, List.length_append, List.length_replicate, Nat.add_sub_cancel' fits]
    refine ⟨wt', ?_, index, start, done, frontier'⟩
    simp only [hw', Option.map_some', count', restore]

theorem fillLeaves_healthy (hw : m.workingTree = some wt) (healthy : m.db.faults = []) :
    ∃ m', fillLeaves nodeGeneratorFn m = .ok () m' ∧ m'.db.faults = [] ∧
      ∃ wt', m'.workingTree = some wt' := by
  simp only [fillLeaves]
  rw [bind_of_ok (getWorkingTree_of_some hw), bind_of_ok (height_of_some hw)]
  split
  · exact ⟨m, rfl, healthy, wt, hw⟩
  · rw [bind_of_ok (rfl : (pure () : MerkleM Unit) m = .ok () m), insertLeafTimes_eq]
    obtain ⟨m₁, run₁, healthy₁, wt₁, hw₁⟩ := insertAll_healthy nodeGeneratorFn _ hw healthy
    rw [bind_of_ok run₁, modifyWorkingTree_apply]
    exact ⟨_, rfl, healthy₁, _, by rw [hw₁]; rfl⟩

end Fill

section Finalize

variable (nodeGeneratorFn : NodeGeneratorFn) (emptyRootHash : EmptyRootHash) {m m' : Merkle}
  {wt : TreeInfo}

/-- Over a full tree of `2^H` leaves the last sibling of level `H` is the Merkle root. -/
theorem Frontier.root {store : Store Value} {leaves : List Bytes} {H : Nat}
    (frontier : Frontier nodeGeneratorFn store wt leaves) (full : leaves.length = 2 ^ H) :
    (wt.lastSiblings H).getD [] = merkleRoot nodeGeneratorFn H leaves := by
  rw [frontier.siblings H, if_pos full.ge, full, Nat.div_self (Nat.two_pow_pos H),
    merkleRoot_eq_nodeAt nodeGeneratorFn full]
  rfl

/-- What a successful finalization does to a frontier over `leaves`: an empty tree is only
marked done; otherwise the tree is padded to `2^H` leaves, marked done with its count put
back, and the single record returned holds the padded tree's root. -/
theorem finalizeWorkingTree_ok {leaves : List Bytes} {kvs : List (RawKV Value)} {root e : Bytes}
    (hw : m.workingTree = some wt) (frontier : Frontier nodeGeneratorFn m.db.store wt leaves)
    (small : leaves.length < 2 ^ 64)
    (run : finalizeWorkingTree nodeGeneratorFn emptyRootHash e m = .ok (kvs, root) m') :
    if leaves = [] then kvs = [] ∧ root = emptyRootHash ∧
      m' = { m with workingTree := some { wt with done := true } }
    else ∃ wt', m'.workingTree = some { wt' with leafCount := leaves.length } ∧
      wt'.index = wt.index ∧ wt'.startLeafIndex = wt.startLeafIndex ∧ wt'.done = true ∧
      Frontier nodeGeneratorFn m'.db.store wt' (padLeaves leaves (heightOf leaves.length)) ∧
      root = merkleRoot nodeGeneratorFn (heightOf leaves.length)
        (padLeaves leaves (heightOf leaves.length)) ∧
      kvs = [⟨prefixedFinalizedTreeKey wt.startLeafIndex, some (.finalizedTreeInfo
        ⟨wt.index, heightOf leaves.length, root, wt.startLeafIndex, leaves.length, e⟩)⟩] := by
  have count : wt.leafCount = leaves.length := by rw [frontier.count, Nat.mod_eq_of_lt small]
  simp only [finalizeWorkingTree] at run
  rw [bind_of_ok (getWorkingTree_of_some hw), bind_of_ok (modifyWorkingTree_apply _)] at run
  simp only [count, List.length_eq_zero] at run
  split at run
  · rename_i empty
    cases run
    rw [if_pos empty]
    exact ⟨rfl, rfl, by simp [hw]⟩
  · rename_i nonempty
    rw [if_neg nonempty]
    have pos : 1 ≤ leaves.length := List.length_pos.mpr nonempty
    rw [hw, Option.map_some', bind_of_ok (rfl : (pure () : MerkleM Unit) _ = .ok () _)] at run
    obtain ⟨_, m₁, fill, record⟩ := bind_eq_ok run
    obtain ⟨wt', hw', index, start, done, frontier'⟩ := fillLeaves_ok nodeGeneratorFn
      (m := ⟨m.db, some { wt with done := true }⟩) rfl ⟨frontier.count, frontier.siblings, frontier.nodes⟩ pos small fill
    rw [bind_of_ok (height_of_some hw'), bind_of_ok (getWorkingTree_of_some hw')] at record
    cases record
    have full := padLeaves_length (heightOf_bounds pos small).1
    refine ⟨wt', hw', index, start, done, frontier', frontier'.root nodeGeneratorFn full, ?_⟩
    simp only [FinalizedTreeInfo.key, index, start]

theorem finalizeWorkingTree_healthy (e : Bytes) (hw : m.workingTree = some wt)
    (healthy : m.db.faults = []) :
    ∃ kvs root m', finalizeWorkingTree nodeGeneratorFn emptyRootHash e m = .ok (kvs, root) m' ∧
      m'.db.faults = [] := by
  simp only [finalizeWorkingTree]
  rw [bind_of_ok (getWorkingTree_of_some hw), bind_of_ok (modifyWorkingTree_apply _), hw,
    Option.map_some']
  split
  · exact ⟨_, _, _, rfl, healthy⟩
  · obtain ⟨m₁, fill, healthy₁, wt₁, hw₁⟩ := fillLeaves_healthy nodeGeneratorFn
      (m := ⟨m.db, some { wt with done := true }⟩) rfl healthy
    rw [bind_of_ok (rfl : (pure () : MerkleM Unit) _ = .ok () _), bind_of_ok fill,
      bind_of_ok (height_of_some hw₁), bind_of_ok (getWorkingTree_of_some hw₁)]
    exact ⟨_, _, _, rfl, healthy₁⟩

end Finalize

theorem heightOf_eq {n : Nat} (pos : 1 ≤ n) :
    heightOf n = if n = 1 then 1 else Nat.size (n - 1) := by
  unfold heightOf
  split_ifs <;> omega

/-- On a healthy store, initializing a tree, inserting a list of leaves and finalizing
returns the root of the leaves padded by their last one to the next power of two, with
the one record that describes the unpadded tree. -/
theorem finalizeWorkingTree_refines_merkleRoot (nodeGeneratorFn : NodeGeneratorFn)
    (emptyRootHash : EmptyRootHash) (t s : Nat) (e : Bytes) (leaves : List Bytes) (m : Merkle)
    (valid : 1 ≤ t ∧ 1 ≤ s) (small : leaves.length < 2 ^ 64) (healthy : m.db.faults = []) :
    ∃ kvs root m', (do
        initializeWorkingTree t s
        leaves.forM (insertLeaf nodeGeneratorFn)
        finalizeWorkingTree nodeGeneratorFn emptyRootHash e) m = .ok (kvs, root) m' ∧
      if leaves = [] then kvs = [] ∧ root = emptyRootHash
      else
        let H := if leaves.length = 1 then 1 else Nat.size (leaves.length - 1)
        root = merkleRoot nodeGeneratorFn H (padLeaves leaves H) ∧
        kvs = [⟨prefixedFinalizedTreeKey s,
          some (.finalizedTreeInfo ⟨t, H, root, s, leaves.length, e⟩)⟩] := by
  let m₀ : Merkle := { m with workingTree := some ⟨t, s, 0, fun _ => none, false⟩ }
  obtain ⟨m₁, insert, healthy₁, wt₁, hw₁⟩ := insertAll_healthy nodeGeneratorFn leaves
    (m := m₀) rfl healthy
  obtain ⟨wt₁', hw₁', index, start, -, frontier⟩ := Frontier.insertAll nodeGeneratorFn leaves
    (m := m₀) rfl (Frontier.fresh nodeGeneratorFn m.db.store t s) (by simpa using small.le) insert
  obtain ⟨kvs, root, m', fin, -⟩ := finalizeWorkingTree_healthy nodeGeneratorFn emptyRootHash e
    hw₁ healthy₁
  refine ⟨kvs, root, m', ?_, ?_⟩
  · rw [bind_of_ok (initializeWorkingTree_of_valid valid.1 valid.2), bind_of_ok insert, fin]
  · rw [hw₁] at hw₁'
    cases hw₁'
    rw [List.nil_append] at frontier
    have spec := finalizeWorkingTree_ok nodeGeneratorFn emptyRootHash hw₁ frontier small fin
    split at spec
    · rename_i empty
      rw [if_pos empty]
      exact ⟨spec.1, spec.2.1⟩
    · rename_i nonempty
      obtain ⟨-, -, -, -, -, -, root_eq, kvs_eq⟩ := spec
      rw [index, start] at kvs_eq
      rw [if_neg nonempty, ← heightOf_eq (List.length_pos.mpr nonempty)]
      exact ⟨root_eq, kvs_eq⟩

/-- Three leaves under concatenation are padded to four: the root is [1, 2, 3, 3] at
height 2, and the record keeps the count 3. -/
theorem finalizeWorkingTree_three_leaves :
    ∃ kvs m', (do
        initializeWorkingTree 1 1
        [[1], [2], [3]].forM (insertLeaf fun a b => a ++ b)
        finalizeWorkingTree (fun a b => a ++ b) [] [])
        (⟨⟨Store.empty, []⟩, none⟩ : Merkle) = .ok (kvs, [1, 2, 3, 3]) m' ∧
      kvs = [⟨prefixedFinalizedTreeKey 1,
        some (.finalizedTreeInfo ⟨1, 2, [1, 2, 3, 3], 1, 3, []⟩)⟩] := by
  obtain ⟨kvs, root, m', run, spec⟩ := finalizeWorkingTree_refines_merkleRoot (fun a b => a ++ b)
    [] 1 1 [] [[1], [2], [3]] ⟨⟨Store.empty, []⟩, none⟩ ⟨le_rfl, le_rfl⟩ (by decide) rfl
  have size : Nat.size 2 = 2 :=
    le_antisymm (Nat.size_le.mpr (by decide)) (Nat.lt_size.mpr (by decide))
  have height : (if ([[1], [2], [3]] : List Bytes).length = 1 then 1
      else Nat.size (([[1], [2], [3]] : List Bytes).length - 1)) = 2 := by simp [size]
  have padded : merkleRoot (fun a b => a ++ b) 2 (padLeaves [[1], [2], [3]] 2) = [1, 2, 3, 3] := rfl
  rw [if_neg (by decide)] at spec
  obtain ⟨rfl, rfl⟩ := spec
  simp only [height, padded] at run
  exact ⟨_, m', run, rfl⟩

end OpinitBots.Merkle
