import OpinitBots.Merkle.Merkle
import OpinitBots.Merkle.Tree

/-! `InsertLeaf`. Inserting leaf `x` at position `n` walks the carry path of `n`: the
levels `h` with `2^h ∣ n + 1`, where the node of index `n / 2^h` is completed. The loop
writes each of these nodes and makes it the level's last sibling. From this follows the
frontier invariant: after `n` leaves the last sibling of level `h` is the last complete
node of that level, and every complete node is in the store. -/
namespace OpinitBots.Merkle

section Calls

variable {m m' : Merkle} {wt : TreeInfo}

theorem initializeWorkingTree_ok {t s : Nat} (run : initializeWorkingTree t s m = .ok () m') :
    1 ≤ t ∧ 1 ≤ s ∧ m' = { m with workingTree := some ⟨t, s, 0, fun _ => none, false⟩ } := by
  unfold initializeWorkingTree at run
  split at run
  · cases run
  · cases run
    exact ⟨by omega, by omega, rfl⟩

theorem initializeWorkingTree_of_valid {t s : Nat} (ht : 1 ≤ t) (hs : 1 ≤ s) :
    initializeWorkingTree t s m = .ok () { m with workingTree := some ⟨t, s, 0, fun _ => none, false⟩ } := by
  rw [initializeWorkingTree, if_neg (by omega)]
  rfl

theorem getWorkingTreeIndex_of_some (hw : m.workingTree = some wt) :
    getWorkingTreeIndex m = .ok wt.index m := by
  simp only [getWorkingTreeIndex]
  rw [bind_of_ok (getWorkingTree_of_some hw)]
  rfl

theorem saveNode_apply (hw : m.workingTree = some wt) (height j : Nat) (d : Bytes) :
    saveNode height j d m = dbSet (prefixedNodeKey wt.index height j) (.raw d) m := by
  simp only [saveNode]
  rw [bind_of_ok (getWorkingTreeIndex_of_some hw)]

theorem getLastSibling_apply (height : Nat) :
    getLastSibling height m =
      .ok ((m.workingTree.bind fun wt => wt.lastSiblings height).getD []) m := rfl

theorem setLastSibling_apply (height : Nat) (d : Bytes) :
    setLastSibling height d m = .ok () { m with workingTree := m.workingTree.map fun wt =>
      { wt with lastSiblings := Function.update wt.lastSiblings height (some d) } } := rfl

theorem saveNode_of_healthy (hw : m.workingTree = some wt) (healthy : m.db.failing = false)
    (height j : Nat) (d : Bytes) :
    saveNode height j d m = .ok () { m with db :=
      ⟨m.db.store.set (prefixedNodeKey wt.index height j) (.raw d), m.db.faults.tail⟩ } := by
  simp [saveNode_apply hw, dbSet_apply, healthy]

theorem saveNode_of_failing (hw : m.workingTree = some wt) (failing : m.db.failing = true)
    (height j : Nat) (d : Bytes) :
    saveNode height j d m = .error .store { m with db := m.db.tick } := by
  simp [saveNode_apply hw, dbSet_apply, failing]

end Calls

section Carry

theorem carry_next {n h : Nat} (path : 2 ^ h ∣ n + 1) :
    2 ^ (h + 1) ∣ n + 1 ↔ n / 2 ^ h % 2 = 1 := by
  obtain ⟨q, hq⟩ := path
  have pos : 0 < 2 ^ h := Nat.pos_pow_of_pos h (by decide)
  have q_pos : 0 < q := Nat.pos_of_ne_zero fun z => by simp [z] at hq
  have quotient : n / 2 ^ h = q - 1 := by
    apply Nat.div_eq_of_lt_le
    · rw [Nat.sub_mul, Nat.one_mul, Nat.mul_comm]; omega
    · rw [Nat.sub_add_cancel q_pos, Nat.mul_comm]; omega
  rw [hq, quotient, Nat.pow_succ, Nat.mul_dvd_mul_iff_left pos]
  omega

theorem carry_stops {n h h' : Nat} (path : 2 ^ h ∣ n + 1) (even : n / 2 ^ h % 2 = 0)
    (above : h < h') : ¬ 2 ^ h' ∣ n + 1 := fun higher =>
  absurd ((carry_next path).mp (Nat.dvd_trans (Nat.pow_dvd_pow 2 above) higher)) (by omega)

theorem carry_le {n h : Nat} (path : 2 ^ h ∣ n + 1) (small : n < 2 ^ 64) : h ≤ 64 := by
  have bound : 2 ^ h ≤ 2 ^ 64 := Nat.le_trans (Nat.le_of_dvd (by omega) path) (by omega)
  exact (Nat.pow_le_pow_iff_right (by decide)).mp bound

theorem div_pow_succ (n h : Nat) : n / 2 ^ (h + 1) = n / 2 ^ h / 2 := by
  rw [Nat.pow_succ, Nat.div_div_eq_div_mul]

theorem succ_div_pow (n h : Nat) :
    (n + 1) / 2 ^ h = n / 2 ^ h + if 2 ^ h ∣ n + 1 then 1 else 0 := Nat.succ_div n (2 ^ h)

theorem level_le {n h j : Nat} (small : n ≤ 2 ^ 64) (hj : j < n / 2 ^ h) : h ≤ 64 := by
  have reach : 2 ^ h ≤ n := by
    by_contra below
    rw [Nat.div_eq_of_lt (by omega)] at hj
    omega
  exact (Nat.pow_le_pow_iff_right (by decide : 1 < 2)).mp (by omega)

end Carry

section Loop

variable (nodeGeneratorFn : NodeGeneratorFn)

/-- The node the carry loop holds at level `h` when `x` is inserted over the last
siblings `ls`. -/
def climb (ls : Nat → Option Bytes) (x : Bytes) : Nat → Bytes
  | 0 => x
  | h + 1 => nodeGeneratorFn ((ls h).getD []) (climb ls x h)

/-- The last siblings once the carry path of `n` from level `h` on is written over `cur`. -/
def carried (ls cur : Nat → Option Bytes) (x : Bytes) (n h : Nat) : Nat → Option Bytes :=
  fun h' => if h ≤ h' ∧ 2 ^ h' ∣ n + 1 then some (climb nodeGeneratorFn ls x h') else cur h'

/-- The keys of the nodes the carry path of `n` writes from level `h` on. -/
def PathKey (t n h : Nat) (k : Bytes) : Prop :=
  ∃ h', h ≤ h' ∧ 2 ^ h' ∣ n + 1 ∧ k = prefixedNodeKey t h' (n / 2 ^ h')

theorem pathKey_succ {t n h : Nat} {k : Bytes} (later : PathKey t n (h + 1) k) : PathKey t n h k :=
  let ⟨h', le, path, eq⟩ := later
  ⟨h', by omega, path, eq⟩

theorem pathKey_ne {t n h : Nat} (small : n < 2 ^ 64) (path : 2 ^ h ∣ n + 1) {k : Bytes}
    (later : PathKey t n (h + 1) k) : k ≠ prefixedNodeKey t h (n / 2 ^ h) := by
  obtain ⟨h', le, path', rfl⟩ := later
  have below : ∀ g, n / 2 ^ g < 2 ^ 64 := fun g => Nat.lt_of_le_of_lt (Nat.div_le_self _ _) small
  rw [Ne, prefixedNodeKey_inj (by have := carry_le path' small; omega)
    (by have := carry_le path small; omega) (below h') (below h)]
  omega

/-- A successful carry loop from a level on the path of `n` makes every path level's node
its last sibling and stores it, and writes no other key. -/
theorem insertLeafLoop_ok (ls : Nat → Option Bytes) (x : Bytes) {n : Nat} (small : n < 2 ^ 64) :
    ∀ (h : Nat) {m m' : Merkle} {wt : TreeInfo}, 2 ^ h ∣ n + 1 → m.workingTree = some wt →
      (∀ h', h ≤ h' → wt.lastSiblings h' = ls h') →
      insertLeafLoop nodeGeneratorFn h (n / 2 ^ h) (climb nodeGeneratorFn ls x h) m = .ok () m' →
      m'.workingTree =
          some { wt with lastSiblings := carried nodeGeneratorFn ls wt.lastSiblings x n h } ∧
        (∀ h', h ≤ h' → 2 ^ h' ∣ n + 1 →
          m'.db.store.get (prefixedNodeKey wt.index h' (n / 2 ^ h')) =
            some (.raw (climb nodeGeneratorFn ls x h'))) ∧
        ∀ k, ¬ PathKey wt.index n h k → m'.db.store.get k = m.db.store.get k
  | h, m, m', wt, path, hw, agree, run => by
    rw [insertLeafLoop] at run
    cases healthy : m.db.failing
    case true => rw [bind_of_error (saveNode_of_failing hw healthy ..)] at run; cases run
    have key_small : ∀ g, 2 ^ g ∣ n + 1 → g < 256 := fun g p => by
      have := carry_le p small; omega
    rw [bind_of_ok (saveNode_of_healthy hw healthy ..), bind_of_ok (getLastSibling_apply _),
      bind_of_ok (setLastSibling_apply ..)] at run
    simp only [hw, Option.some_bind, Option.map_some'] at run
    split at run
    case isTrue even =>
      cases run
      refine ⟨?_, fun h' le path' => ?_, fun k off => ?_⟩
      · simp only [hw, Option.map_some', Option.some.injEq, TreeInfo.mk.injEq, true_and,
          and_true]
        funext h'
        by_cases at_h : h' = h
        · subst at_h; simp [carried, path]
        · have not_path : ¬ (h ≤ h' ∧ 2 ^ h' ∣ n + 1) := fun ⟨le, p⟩ =>
            carry_stops path even (by omega) p
          simp [carried, not_path, Function.update_noteq at_h]
      · obtain rfl : h' = h := by
          by_contra ne; exact carry_stops path even (by omega) path'
        simp
      · have ne : prefixedNodeKey wt.index h (n / 2 ^ h) ≠ k := fun eq =>
          off ⟨h, le_rfl, path, eq.symm⟩
        simp [ne]
    case isFalse odd =>
      have next : 2 ^ (h + 1) ∣ n + 1 := (carry_next path).mpr (by omega)
      have bound := carry_le next small
      rw [← div_pow_succ, agree h le_rfl,
        show nodeGeneratorFn ((ls h).getD []) (climb nodeGeneratorFn ls x h) =
          climb nodeGeneratorFn ls x (h + 1) from rfl] at run
      obtain ⟨tree, nodes, frame⟩ := insertLeafLoop_ok ls x small (h + 1) next rfl
        (fun h' le => by
          dsimp only
          rw [Function.update_noteq (by omega)]
          exact agree h' (by omega)) run
      refine ⟨?_, fun h' le path' => ?_, fun k off => ?_⟩
      · rw [tree]
        congr
        funext h'
        by_cases at_h : h' = h
        · subst at_h; simp [carried, path]
        · simp only [carried, Function.update_noteq at_h]
          congr 1
          exact propext ⟨fun ⟨le, p⟩ => ⟨by omega, p⟩, fun ⟨le, p⟩ => ⟨by omega, p⟩⟩
      · by_cases at_h : h' = h
        · rw [at_h, frame _ (fun later => pathKey_ne small path later rfl)]
          simp
        · exact nodes h' (by omega) path'
      · rw [frame k (fun later => off (pathKey_succ later))]
        have ne : prefixedNodeKey wt.index h (n / 2 ^ h) ≠ k := fun eq =>
          off ⟨h, le_rfl, path, eq.symm⟩
        simp [ne]
termination_by h => 64 - h

theorem insertLeafLoop_healthy :
    ∀ (h j : Nat) (d : Bytes) {m : Merkle} {wt : TreeInfo}, m.workingTree = some wt →
      m.db.faults = [] → ∃ m', insertLeafLoop nodeGeneratorFn h j d m = .ok () m' ∧
        m'.db.faults = [] ∧ ∃ wt', m'.workingTree = some wt'
  | h, j, d, m, wt, hw, healthy => by
    have notFailing : m.db.failing = false := by simp [DB.failing, healthy]
    rw [insertLeafLoop, bind_of_ok (saveNode_of_healthy hw notFailing ..),
      bind_of_ok (getLastSibling_apply _), bind_of_ok (setLastSibling_apply ..)]
    simp only [hw, Option.map_some']
    split
    · exact ⟨_, rfl, by simp [healthy], _, rfl⟩
    · exact insertLeafLoop_healthy (h + 1) (j / 2) _ rfl (by simp [healthy])
termination_by _ j => j

theorem insertLeaf_apply {m : Merkle} {wt : TreeInfo} (hw : m.workingTree = some wt) (x : Bytes) :
    insertLeaf nodeGeneratorFn x m = (insertLeafLoop nodeGeneratorFn 0 wt.leafCount x >>= fun _ =>
      modifyWorkingTree fun wt => { wt with leafCount := (wt.leafCount + 1) % 2 ^ 64 }) m := by
  simp only [insertLeaf]
  rw [bind_of_ok (getWorkingTree_of_some hw)]

/-- A successful `InsertLeaf` of `x` at position `n`: the carry path of `n` is written and
the count goes up by one. -/
theorem insertLeaf_ok {m m' : Merkle} {wt : TreeInfo} (hw : m.workingTree = some wt)
    (small : wt.leafCount < 2 ^ 64) (x : Bytes) (run : insertLeaf nodeGeneratorFn x m = .ok () m') :
    m'.workingTree = some { wt with
        lastSiblings := carried nodeGeneratorFn wt.lastSiblings wt.lastSiblings x wt.leafCount 0,
        leafCount := (wt.leafCount + 1) % 2 ^ 64 } ∧
      (∀ h, 2 ^ h ∣ wt.leafCount + 1 →
        m'.db.store.get (prefixedNodeKey wt.index h (wt.leafCount / 2 ^ h)) =
          some (.raw (climb nodeGeneratorFn wt.lastSiblings x h))) ∧
      ∀ k, ¬ PathKey wt.index wt.leafCount 0 k → m'.db.store.get k = m.db.store.get k := by
  rw [insertLeaf_apply nodeGeneratorFn hw] at run
  obtain ⟨_, m₁, loop, count⟩ := bind_eq_ok run
  rw [modifyWorkingTree_apply] at count
  cases count
  obtain ⟨tree, nodes, frame⟩ := insertLeafLoop_ok nodeGeneratorFn wt.lastSiblings x small 0
    (by simp) hw (fun _ _ => rfl) (by simpa using loop)
  exact ⟨by simp [tree], fun h path => nodes h (Nat.zero_le h) path, frame⟩

theorem insertLeaf_healthy {m : Merkle} {wt : TreeInfo} (hw : m.workingTree = some wt)
    (healthy : m.db.faults = []) (x : Bytes) :
    ∃ m', insertLeaf nodeGeneratorFn x m = .ok () m' ∧ m'.db.faults = [] ∧
      ∃ wt', m'.workingTree = some wt' := by
  obtain ⟨m₁, loop, healthy₁, wt₁, hw₁⟩ :=
    insertLeafLoop_healthy nodeGeneratorFn 0 wt.leafCount x hw healthy
  rw [insertLeaf_apply nodeGeneratorFn hw, bind_of_ok loop, modifyWorkingTree_apply]
  exact ⟨_, rfl, healthy₁, _, by rw [hw₁]; rfl⟩

theorem insertAll_healthy (xs : List Bytes) : ∀ {m : Merkle} {wt : TreeInfo},
    m.workingTree = some wt → m.db.faults = [] →
      ∃ m', xs.forM (insertLeaf nodeGeneratorFn) m = .ok () m' ∧ m'.db.faults = [] ∧
        ∃ wt', m'.workingTree = some wt' := by
  induction xs with
  | nil => exact fun hw healthy => ⟨_, rfl, healthy, _, hw⟩
  | cons x xs ih =>
    intro m wt hw healthy
    obtain ⟨m₁, run₁, healthy₁, wt₁, hw₁⟩ := insertLeaf_healthy nodeGeneratorFn hw healthy x
    rw [List.forM_cons', bind_of_ok run₁]
    exact ih hw₁ healthy₁

end Loop

section Frontier

variable (nodeGeneratorFn : NodeGeneratorFn)

/-- The frontier invariant of a working tree built from `leaves`, with the store it
wrote: the count; the last sibling of each level is the level's last complete node,
present exactly at the levels some node reached; every complete node is stored. -/
structure Frontier (store : Store Value) (wt : TreeInfo) (leaves : List Bytes) : Prop where
  count : wt.leafCount = leaves.length % 2 ^ 64
  siblings : ∀ h, wt.lastSiblings h = if 2 ^ h ≤ leaves.length then
    some (nodeAt nodeGeneratorFn (leafOf leaves) h (leaves.length / 2 ^ h - 1)) else none
  nodes : ∀ h j, j < leaves.length / 2 ^ h → store.get (prefixedNodeKey wt.index h j) =
    some (.raw (nodeAt nodeGeneratorFn (leafOf leaves) h j))

theorem leafOf_append_lt {leaves : List Bytes} {i : Nat} (x : Bytes) (hi : i < leaves.length) :
    leafOf (leaves ++ [x]) i = leafOf leaves i := by
  simp [leafOf, List.getElem?_append_left hi]

theorem leafOf_append_length (leaves : List Bytes) (x : Bytes) :
    leafOf (leaves ++ [x]) leaves.length = x := by
  simp [leafOf]

theorem nodeAt_append {leaves : List Bytes} {h j : Nat} (x : Bytes)
    (within : (j + 1) * 2 ^ h ≤ leaves.length) :
    nodeAt nodeGeneratorFn (leafOf (leaves ++ [x])) h j = nodeAt nodeGeneratorFn (leafOf leaves) h j :=
  nodeAt_congr nodeGeneratorFn h j fun i hi =>
    leafOf_append_lt x (by rw [Nat.succ_mul] at within; omega)

theorem block_within {n h j : Nat} (hj : j < n / 2 ^ h) : (j + 1) * 2 ^ h ≤ n :=
  Nat.le_trans (Nat.mul_le_mul_right _ hj) (Nat.div_mul_le_self n _)

theorem climb_eq_nodeAt {store : Store Value} {wt : TreeInfo} {leaves : List Bytes}
    (frontier : Frontier nodeGeneratorFn store wt leaves) (x : Bytes) :
    ∀ h, 2 ^ h ∣ leaves.length + 1 → climb nodeGeneratorFn wt.lastSiblings x h =
      nodeAt nodeGeneratorFn (leafOf (leaves ++ [x])) h (leaves.length / 2 ^ h)
  | 0, _ => by simp [climb, nodeAt, leafOf_append_length]
  | h + 1, path => by
    have path_h : 2 ^ h ∣ leaves.length + 1 :=
      Nat.dvd_trans (Nat.pow_dvd_pow 2 (Nat.le_succ h)) path
    have odd := (carry_next path_h).mp path
    obtain ⟨k, hk⟩ : ∃ k, leaves.length / 2 ^ h = 2 * k + 1 := ⟨leaves.length / 2 ^ h / 2, by omega⟩
    have reach : 2 ^ h ≤ leaves.length := by
      by_contra below
      rw [Nat.div_eq_of_lt (by omega)] at hk
      omega
    have left := nodeAt_append nodeGeneratorFn (h := h) (j := 2 * k) x
      (by rw [← hk]; exact Nat.div_mul_le_self _ _)
    rw [climb, climb_eq_nodeAt frontier x h path_h, frontier.siblings h, if_pos reach, hk,
      div_pow_succ, hk, show (2 * k + 1) / 2 = k by omega, Nat.add_sub_cancel, Option.getD_some,
      ← left]
    rfl

theorem not_pathKey {t n h j : Nat} (small : n < 2 ^ 64) (hj : j < (n + 1) / 2 ^ h)
    (off : ¬ (2 ^ h ∣ n + 1 ∧ j = n / 2 ^ h)) : ¬ PathKey t n 0 (prefixedNodeKey t h j) := by
  rintro ⟨h', -, path', eq⟩
  have bound := level_le (by omega) hj
  have below : ∀ g, n / 2 ^ g < 2 ^ 64 := fun g => Nat.lt_of_le_of_lt (Nat.div_le_self _ _) small
  have jsmall : j < 2 ^ 64 := Nat.lt_of_lt_of_le hj (Nat.le_trans (Nat.div_le_self _ _) small)
  rw [prefixedNodeKey_inj (by omega) (by have := carry_le path' small; omega) jsmall
    (below h')] at eq
  obtain ⟨rfl, rfl⟩ := eq
  exact off ⟨path', rfl⟩

/-- One successful `InsertLeaf` keeps the frontier invariant, for the leaves with the new
one appended. -/
theorem Frontier.insert {m m' : Merkle} {wt : TreeInfo} {leaves : List Bytes}
    (hw : m.workingTree = some wt) (frontier : Frontier nodeGeneratorFn m.db.store wt leaves)
    (room : leaves.length < 2 ^ 64) (x : Bytes) (run : insertLeaf nodeGeneratorFn x m = .ok () m') :
    ∃ wt', m'.workingTree = some wt' ∧ wt'.index = wt.index ∧
      wt'.startLeafIndex = wt.startLeafIndex ∧ wt'.done = wt.done ∧
      Frontier nodeGeneratorFn m'.db.store wt' (leaves ++ [x]) := by
  have count : wt.leafCount = leaves.length := by rw [frontier.count, Nat.mod_eq_of_lt room]
  obtain ⟨tree, nodes, frame⟩ := insertLeaf_ok nodeGeneratorFn hw (count ▸ room) x run
  rw [count] at tree nodes frame
  refine ⟨_, tree, rfl, rfl, rfl, ⟨by simp, fun h => ?_, fun h j hj => ?_⟩⟩
  · simp only [carried, Nat.zero_le, true_and, List.length_append, List.length_singleton]
    rw [succ_div_pow]
    split
    · rename_i path
      rw [if_pos (Nat.le_of_dvd (by omega) path), climb_eq_nodeAt nodeGeneratorFn frontier x h path,
        Nat.add_sub_cancel]
    · rename_i off
      have reach : 2 ^ h ≤ leaves.length ↔ 2 ^ h ≤ leaves.length + 1 :=
        ⟨fun le => by omega, fun le => by
          rcases Nat.lt_or_eq_of_le le with lt | eq
          · omega
          · exact absurd (eq ▸ Nat.dvd_refl _) off⟩
      rw [frontier.siblings h, Nat.add_zero]
      by_cases r : 2 ^ h ≤ leaves.length
      · have pos : 0 < leaves.length / 2 ^ h := Nat.div_pos r (Nat.pos_pow_of_pos h (by decide))
        rw [if_pos r, if_pos (reach.mp r), Nat.add_zero, nodeAt_append nodeGeneratorFn x
          (block_within (by omega : leaves.length / 2 ^ h - 1 < leaves.length / 2 ^ h))]
      · rw [if_neg r, if_neg (mt reach.mpr r)]
  · simp only [List.length_append, List.length_singleton] at hj
    by_cases onPath : 2 ^ h ∣ leaves.length + 1 ∧ j = leaves.length / 2 ^ h
    · obtain ⟨path, rfl⟩ := onPath
      rw [nodes h path, climb_eq_nodeAt nodeGeneratorFn frontier x h path]
    · have old : j < leaves.length / 2 ^ h := by
        rw [succ_div_pow] at hj
        split at hj <;> omega
      rw [frame _ (not_pathKey room hj onPath), frontier.nodes h j old,
        nodeAt_append nodeGeneratorFn x (block_within old)]

theorem Frontier.fresh (store : Store Value) (t s : Nat) :
    Frontier nodeGeneratorFn store ⟨t, s, 0, fun _ => none, false⟩ [] :=
  ⟨rfl, fun h => by simp [Nat.pos_pow_of_pos h], fun h j hj => by simp at hj⟩

/-- Successful insertions of a list of leaves keep the frontier invariant. -/
theorem Frontier.insertAll (xs : List Bytes) : ∀ {m m' : Merkle} {wt : TreeInfo}
    {leaves : List Bytes}, m.workingTree = some wt →
    Frontier nodeGeneratorFn m.db.store wt leaves → leaves.length + xs.length ≤ 2 ^ 64 →
    xs.forM (insertLeaf nodeGeneratorFn) m = .ok () m' →
    ∃ wt', m'.workingTree = some wt' ∧ wt'.index = wt.index ∧
      wt'.startLeafIndex = wt.startLeafIndex ∧ wt'.done = wt.done ∧
      Frontier nodeGeneratorFn m'.db.store wt' (leaves ++ xs) := by
  induction xs with
  | nil =>
    intro m m' wt leaves hw frontier _ run
    cases run
    exact ⟨wt, hw, rfl, rfl, rfl, by simpa using frontier⟩
  | cons x xs ih =>
    intro m m' wt leaves hw frontier room run
    rw [List.forM_cons'] at run
    obtain ⟨_, m₁, step, rest⟩ := bind_eq_ok run
    obtain ⟨wt₁, hw₁, index₁, start₁, done₁, frontier₁⟩ :=
      frontier.insert nodeGeneratorFn hw (by simp at room; omega) x step
    obtain ⟨wt', hw', index', start', done', frontier'⟩ :=
      ih hw₁ frontier₁ (by simp at room ⊢; omega) rest
    exact ⟨wt', hw', index'.trans index₁, start'.trans start₁, done'.trans done₁,
      by simpa using frontier'⟩

end Frontier

/-- After `InitializeWorkingTree(t, s)` and successful insertions of `leaves`: the last
siblings are present exactly at the levels below the bit length of the count, each the
root of its level's last complete block, and the root of every complete block is stored
as node `(t, h, j)`. -/
theorem insertLeaf_frontier (nodeGeneratorFn : NodeGeneratorFn) (t s : Nat)
    (leaves : List Bytes) {m m' : Merkle} (small : leaves.length < 2 ^ 64)
    (run : (do initializeWorkingTree t s; leaves.forM (insertLeaf nodeGeneratorFn)) m = .ok () m') :
    ∃ wt, m'.workingTree = some wt ∧ wt.leafCount = leaves.length ∧
      (∀ h, (wt.lastSiblings h).isSome ↔ h < Nat.size leaves.length) ∧
      (∀ h, h < Nat.size leaves.length → wt.lastSiblings h = some (merkleRoot nodeGeneratorFn h
        ((leaves.drop ((leaves.length / 2 ^ h - 1) * 2 ^ h)).take (2 ^ h)))) ∧
      ∀ h j, j < leaves.length / 2 ^ h → m'.db.store.get (prefixedNodeKey t h j) =
        some (.raw (merkleRoot nodeGeneratorFn h ((leaves.drop (j * 2 ^ h)).take (2 ^ h)))) := by
  obtain ⟨_, m₁, init, inserts⟩ := bind_eq_ok run
  obtain ⟨-, -, fresh⟩ := initializeWorkingTree_ok init
  obtain ⟨wt, hw, index, -, -, frontier⟩ := Frontier.insertAll nodeGeneratorFn leaves
    (by rw [fresh]) (Frontier.fresh nodeGeneratorFn m₁.db.store t s) (by simp; omega) inserts
  simp only [List.nil_append] at frontier
  have reach : ∀ h, 2 ^ h ≤ leaves.length ↔ h < Nat.size leaves.length :=
    fun h => Nat.lt_size.symm
  refine ⟨wt, hw, by rw [frontier.count, Nat.mod_eq_of_lt small], fun h => ?_, fun h lt => ?_,
    fun h j hj => ?_⟩
  · rw [frontier.siblings h, ← reach h]
    split <;> simp_all
  · have last : leaves.length / 2 ^ h - 1 < leaves.length / 2 ^ h :=
      Nat.sub_lt (Nat.div_pos ((reach h).mpr lt) (Nat.pos_pow_of_pos h (by decide))) one_pos
    rw [frontier.siblings h, if_pos ((reach h).mpr lt),
      merkleRoot_block nodeGeneratorFn leaves h _ (block_within last)]
  · rw [show t = wt.index from index.symm, frontier.nodes h j hj,
      merkleRoot_block nodeGeneratorFn leaves h j (block_within hj)]

/-- Three leaves under concatenation: level 0 ends in [3], level 1 in [1, 2], level 2 is
empty, and node (1, 1, 0) is stored as [1, 2]. -/
theorem insertLeaf_frontier_three_leaves :
    ∃ m', (do initializeWorkingTree 1 1; [[1], [2], [3]].forM (insertLeaf fun a b => a ++ b))
        (⟨⟨Store.empty, []⟩, none⟩ : Merkle) = .ok () m' ∧ ∃ wt, m'.workingTree = some wt ∧
      wt.leafCount = 3 ∧ wt.lastSiblings 0 = some [3] ∧ wt.lastSiblings 1 = some [1, 2] ∧
      wt.lastSiblings 2 = none ∧ m'.db.store.get (prefixedNodeKey 1 1 0) = some (.raw [1, 2]) := by
  obtain ⟨m', insert, -⟩ := insertAll_healthy (fun a b => a ++ b) [[1], [2], [3]]
    (m := ⟨⟨Store.empty, []⟩, some ⟨1, 1, 0, fun _ => none, false⟩⟩) rfl rfl
  have run : (do initializeWorkingTree 1 1; [[1], [2], [3]].forM (insertLeaf fun a b => a ++ b))
      (⟨⟨Store.empty, []⟩, none⟩ : Merkle) = .ok () m' := by
    rw [bind_of_ok (initializeWorkingTree_of_valid le_rfl le_rfl)]
    exact insert
  obtain ⟨wt, hw, count, reach, siblings, nodes⟩ := insertLeaf_frontier _ 1 1 _ (by decide) run
  have size : Nat.size 3 = 2 :=
    le_antisymm (Nat.size_le.mpr (by decide)) (Nat.lt_size.mpr (by decide))
  refine ⟨m', run, wt, hw, count, (siblings 0 ?_).trans rfl, (siblings 1 ?_).trans rfl, ?_,
    (nodes 1 0 (by decide)).trans rfl⟩
  · simp [size]
  · simp [size]
  · simpa [size] using reach 2

end OpinitBots.Merkle
