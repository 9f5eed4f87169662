import OpinitBots.Merkle.Frame
import OpinitBots.Merkle.Proofs

/-! The tree lifecycle the bots run on the engine: a working tree initialized, filled leaf
by leaf, finalized with its batch committed, and followed by the next tree, directly or
through a saved and reloaded snapshot. A ghost records what the run was asked to do; every
engine the lifecycle reaches stands to its ghost as `Inv` says, as long as leaf indices do
not wrap, and `GetProofs` serves every finalized tree from it. -/
namespace OpinitBots.Merkle

section Keys

def NodeOf (t : Nat) (k : Bytes) : Prop := ∃ h j, k = prefixedNodeKey t h j

theorem LaterNode.nodeOf {t p : Nat} {k : Bytes} (later : LaterNode t p k) : NodeOf t k :=
  let ⟨h, j, _, _, _, eq⟩ := later
  ⟨h, j, eq⟩

theorem node_not_finalized (t h j : Nat) :
    finalizedTreeKey.isPrefixOf (prefixedNodeKey t h j) = false := rfl

theorem working_not_finalized (version : Nat) :
    finalizedTreeKey.isPrefixOf (prefixedWorkingTreeKey version) = false := rfl

theorem prefixedNodeKey_ne_working (t h j version : Nat) :
    prefixedNodeKey t h j ≠ prefixedWorkingTreeKey version := fun same => by
  have heads := congrArg List.head? same
  have node : (prefixedNodeKey t h j).head? = some 110 := rfl
  have working : (prefixedWorkingTreeKey version).head? = some 119 := rfl
  rw [node, working] at heads
  exact absurd (Option.some.inj heads) (by decide)

theorem prefixedNodeKey_index {t t' h h' j j' : Nat} (ht : t < 2 ^ 64) (ht' : t' < 2 ^ 64)
    (same : prefixedNodeKey t h j = prefixedNodeKey t' h' j') : t = t' := by
  simp only [prefixedNodeKey, List.append_cancel_left_eq] at same
  exact (fromUint64Key_inj ht ht').mp (List.append_inj same (by simp)).1

theorem prefixedFinalizedTreeKey_inj {a b : Nat} (ha : a < 2 ^ 64) (hb : b < 2 ^ 64)
    (same : prefixedFinalizedTreeKey a = prefixedFinalizedTreeKey b) : a = b := by
  simp only [prefixedFinalizedTreeKey, List.append_cancel_left_eq] at same
  exact (fromUint64Key_inj ha hb).mp same

end Keys

section Ghost

/-- A tree the run finalized: its index, start, leaves and extra data, and the root that
its `FinalizeWorkingTree` returned. -/
structure BuiltTree where
  index : Nat
  start : Nat
  leaves : List Bytes
  extraData : Bytes
  root : Bytes

namespace BuiltTree

def height (tr : BuiltTree) : Nat := heightOf tr.leaves.length

def padded (tr : BuiltTree) : List Bytes := padLeaves tr.leaves tr.height

def info (tr : BuiltTree) : FinalizedTreeInfo :=
  ⟨tr.index, tr.height, tr.root, tr.start, tr.leaves.length, tr.extraData⟩

end BuiltTree

/-- What a run was asked to do so far: the trees it finalized, oldest first; the index
and start of the tree it builds, or of the next one once the last was finalized; and the
leaves it inserted into the tree it builds. -/
structure Ghost where
  trees : List BuiltTree
  index : Nat
  start : Nat
  leaves : List Bytes
  finalized : Bool

def Ghost.next (g : Ghost) : Ghost := { g with finalized := false }

variable (nodeGeneratorFn : NodeGeneratorFn) (emptyRootHash : EmptyRootHash)

/-- The runs of the tree lifecycle on a store that starts without finalized records. Each
step is a call, or a pair of calls, that returned; the next tree starts either at the
uint64 successors the caller computes or from a snapshot saved and loaded again. -/
inductive Reachable : Merkle → Ghost → Prop
  | init {m m' : Merkle} {t s : Nat} :
      (∀ k v, m.db.store.get k = some v → finalizedTreeKey.isPrefixOf k = false) →
      t < 2 ^ 64 → s < 2 ^ 64 → initializeWorkingTree t s m = .ok () m' →
      Reachable m' ⟨[], t, s, [], false⟩
  | insert {m m' : Merkle} {g : Ghost} {x : Bytes} :
      Reachable m g → g.finalized = false → insertLeaf nodeGeneratorFn x m = .ok () m' →
      Reachable m' { g with leaves := g.leaves ++ [x] }
  | finalize {m m₁ m' : Merkle} {g : Ghost} {e root : Bytes} {kvs : List (RawKV Value)} :
      Reachable m g → g.finalized = false →
      finalizeWorkingTree nodeGeneratorFn emptyRootHash e m = .ok (kvs, root) m₁ →
      dbBatchSet kvs m₁ = .ok () m' →
      Reachable m' ⟨g.trees ++ [⟨g.index, g.start, g.leaves, e, root⟩], g.index + 1,
        g.start + g.leaves.length, [], true⟩
  | nextInit {m m' : Merkle} {g : Ghost} {wt : TreeInfo} :
      Reachable m g → g.finalized = true → m.workingTree = some wt →
      initializeWorkingTree ((wt.index + 1) % 2 ^ 64)
        ((wt.startLeafIndex + wt.leafCount) % 2 ^ 64) m = .ok () m' →
      Reachable m' g.next
  | nextLoad {m m₁ m' : Merkle} {g : Ghost} {version : Nat} :
      Reachable m g → g.finalized = true → saveWorkingTree version m = .ok () m₁ →
      loadWorkingTree version m₁ = .ok () m' → Reachable m' g.next

theorem Reachable.insertAll (xs : List Bytes) : ∀ {m m' : Merkle} {g : Ghost},
    Reachable nodeGeneratorFn emptyRootHash m g → g.finalized = false →
    xs.forM (insertLeaf nodeGeneratorFn) m = .ok () m' →
    Reachable nodeGeneratorFn emptyRootHash m' { g with leaves := g.leaves ++ xs } := by
  induction xs with
  | nil => intro m m' g run _ done; cases done; simpa using run
  | cons x xs ih =>
    intro m m' g run active done
    rw [List.forM_cons'] at done
    obtain ⟨_, m₁, first, rest⟩ := bind_eq_ok done
    simpa using ih (run.insert active first) active rest

theorem Reachable.single (leaves : List Bytes) (e : Bytes) :
    ∃ m root, Reachable nodeGeneratorFn emptyRootHash m
      ⟨[⟨1, 1, leaves, e, root⟩], 2, 1 + leaves.length, [], true⟩ ∧ m.db.faults = [] := by
  have start : Reachable nodeGeneratorFn emptyRootHash
      ⟨⟨Store.empty, []⟩, some ⟨1, 1, 0, fun _ => none, false⟩⟩ ⟨[], 1, 1, [], false⟩ :=
    .init (m := ⟨⟨Store.empty, []⟩, none⟩) (fun k v found => by cases found)
      (by decide) (by decide) (initializeWorkingTree_of_valid le_rfl le_rfl)
  obtain ⟨m₂, insert, healthy₂, wt₂, hw₂⟩ :=
    insertAll_healthy nodeGeneratorFn leaves (m := ⟨⟨Store.empty, []⟩, some ⟨1, 1, 0, fun _ => none, false⟩⟩) rfl rfl
  obtain ⟨kvs, root, m₃, fin, healthy₃⟩ :=
    finalizeWorkingTree_healthy nodeGeneratorFn emptyRootHash e hw₂ healthy₂
  have done := (start.insertAll nodeGeneratorFn emptyRootHash leaves rfl insert).finalize rfl fin
    (dbBatchSet_healthy kvs healthy₃)
  exact ⟨_, root, by simpa using done, rfl⟩

end Ghost

section Inv

variable (nodeGeneratorFn : NodeGeneratorFn)

/-- The finalized trees as the store must hold them: each non-empty tree's record under
its start and its padded nodes under its index, and no finalized record besides. -/
structure Stored (store : Store Value) (trees : List BuiltTree) : Prop where
  records : ∀ tr ∈ trees, tr.leaves ≠ [] → FinalizedRecord store tr.info
  nodes : ∀ tr ∈ trees, tr.leaves ≠ [] → ∀ h j, j < 2 ^ tr.height / 2 ^ h →
    store.get (prefixedNodeKey tr.index h j) =
      some (.raw (nodeAt nodeGeneratorFn (leafOf tr.padded) h j))
  only : ∀ k v, store.get k = some v → finalizedTreeKey.isPrefixOf k →
    ∃ tr ∈ trees, tr.leaves ≠ [] ∧ k = tr.info.key ∧ v = .finalizedTreeInfo tr.info

/-- Where the working tree stands: being built over the ghost's leaves, or finalized with
the ghost already pointing at the tree after it. -/
inductive WorkingAt (store : Store Value) : TreeInfo → Ghost → Prop
  | building {wt : TreeInfo} {g : Ghost} : g.finalized = false → wt.done = false →
      wt.index = g.index → wt.startLeafIndex = g.start →
      Frontier nodeGeneratorFn store wt g.leaves → WorkingAt store wt g
  | finalized {wt : TreeInfo} {g : Ghost} : g.finalized = true → wt.done = true →
      g.leaves = [] → wt.index + 1 = g.index → wt.startLeafIndex + wt.leafCount = g.start →
      WorkingAt store wt g

/-- How an engine the lifecycle reached stands to its ghost while leaf indices do not
wrap: the working tree as `WorkingAt` says, the finalized trees in index and leaf order
with disjoint ranges, their roots the recursive ones, and the store as `Stored` says. -/
structure Inv (m : Merkle) (g : Ghost) : Prop where
  working : ∃ wt, m.workingTree = some wt ∧ WorkingAt nodeGeneratorFn m.db.store wt g
  index_le : g.index ≤ 2 ^ 64
  building : g.finalized = false → g.index < 2 ^ 64
  start_pos : 1 ≤ g.start
  no_wrap : g.start + g.leaves.length ≤ 2 ^ 64
  before : ∀ tr ∈ g.trees, tr.index < g.index ∧ tr.start + tr.leaves.length ≤ g.start
  starts_pos : ∀ tr ∈ g.trees, 1 ≤ tr.start
  disjoint : ∀ a ∈ g.trees, ∀ b ∈ g.trees, a.start < b.start →
    a.start + a.leaves.length ≤ b.start
  roots : ∀ tr ∈ g.trees, tr.leaves ≠ [] →
    tr.root = merkleRoot nodeGeneratorFn tr.height tr.padded
  stored : Stored nodeGeneratorFn m.db.store g.trees

theorem Stored.frame {store store' : Store Value} {trees : List BuiltTree}
    (stored : Stored nodeGeneratorFn store trees)
    (same : ∀ k, (finalizedTreeKey.isPrefixOf k ∨
      ∃ tr ∈ trees, tr.leaves ≠ [] ∧ NodeOf tr.index k) → store'.get k = store.get k) :
    Stored nodeGeneratorFn store' trees where
  records tr mem ne := by
    rw [FinalizedRecord, same _ (.inl (finalizedKey_isPrefixOf _))]
    exact stored.records tr mem ne
  nodes tr mem ne h j lt := by
    rw [same _ (.inr ⟨tr, mem, ne, h, j, rfl⟩)]
    exact stored.nodes tr mem ne h j lt
  only k v found pk := stored.only k v (by rw [← same k (.inl pk)]; exact found) pk

theorem not_nodeOf_later {trees : List BuiltTree} {t : Nat} (small : t < 2 ^ 64)
    (later : ∀ tr ∈ trees, tr.index < t) {k : Bytes}
    (key : finalizedTreeKey.isPrefixOf k ∨ ∃ tr ∈ trees, tr.leaves ≠ [] ∧ NodeOf tr.index k) :
    ¬ NodeOf t k := by
  rintro ⟨h, j, rfl⟩
  rcases key with pk | ⟨tr, mem, -, h', j', same⟩
  · rw [node_not_finalized] at pk
    cases pk
  · have := later tr mem
    have := prefixedNodeKey_index small (by omega) same
    omega

theorem Stored.append_empty {store : Store Value} {trees : List BuiltTree} {tr : BuiltTree}
    (stored : Stored nodeGeneratorFn store trees) (empty : tr.leaves = []) :
    Stored nodeGeneratorFn store (trees ++ [tr]) where
  records a mem ne := by
    rcases List.mem_append.mp mem with mem | mem
    · exact stored.records a mem ne
    · rw [List.mem_singleton.mp mem] at ne; exact absurd empty ne
  nodes a mem ne := by
    rcases List.mem_append.mp mem with mem | mem
    · exact stored.nodes a mem ne
    · rw [List.mem_singleton.mp mem] at ne; exact absurd empty ne
  only k v found pk :=
    let ⟨a, mem, rest⟩ := stored.only k v found pk
    ⟨a, List.mem_append_left _ mem, rest⟩

theorem Stored.append_record {store : Store Value} {trees : List BuiltTree}
    (stored : Stored nodeGeneratorFn store trees) (tr : BuiltTree) (ne : tr.leaves ≠ [])
    (nodes : ∀ h j, j < 2 ^ tr.height / 2 ^ h → store.get (prefixedNodeKey tr.index h j) =
      some (.raw (nodeAt nodeGeneratorFn (leafOf tr.padded) h j)))
    (small : tr.start < 2 ^ 64)
    (earlier : ∀ a ∈ trees, a.leaves ≠ [] → a.start < tr.start) :
    Stored nodeGeneratorFn (store.set tr.info.key (.finalizedTreeInfo tr.info))
      (trees ++ [tr]) := by
  have other : ∀ a ∈ trees, a.leaves ≠ [] → tr.info.key ≠ a.info.key := fun a mem ane same => by
    have := earlier a mem ane
    have := prefixedFinalizedTreeKey_inj small (show a.start < 2 ^ 64 by omega) same
    simp only [BuiltTree.info] at this
    omega
  refine ⟨fun a mem ane => ?_, fun a mem ane h j lt => ?_, fun k v found pk => ?_⟩
  · rcases List.mem_append.mp mem with mem | mem
    · rw [FinalizedRecord, Store.get_set, if_neg (other a mem ane)]
      exact stored.records a mem ane
    · rw [List.mem_singleton.mp mem, FinalizedRecord, Store.get_set, if_pos rfl]
  · have key : tr.info.key ≠ prefixedNodeKey a.index h j := fun same => by
      have := finalizedKey_isPrefixOf tr.info
      rw [same, node_not_finalized] at this
      cases this
    rw [Store.get_set, if_neg key]
    rcases List.mem_append.mp mem with mem | mem
    · exact stored.nodes a mem ane h j lt
    · rw [List.mem_singleton.mp mem]
      rw [List.mem_singleton.mp mem] at lt
      exact nodes h j lt
  · rw [Store.get_set] at found
    split at found
    · rename_i at_key
      cases found
      exact ⟨tr, List.mem_append_right _ (List.mem_singleton_self _), ne, at_key.symm, rfl⟩
    · obtain ⟨a, mem, rest⟩ := stored.only k v found pk
      exact ⟨a, List.mem_append_left _ mem, rest⟩

/-- Stored trees with disjoint ranges, each starting below 2^64, give the finalized
namespace the shape `GetProofs` relies on. -/
theorem Stored.view {store : Store Value} {trees : List BuiltTree}
    (stored : Stored nodeGeneratorFn store trees)
    (small : ∀ tr ∈ trees, tr.leaves ≠ [] → tr.start < 2 ^ 64)
    (disjoint : ∀ a ∈ trees, ∀ b ∈ trees, a.start < b.start →
      a.start + a.leaves.length ≤ b.start) :
    FinalizedView store where
  keyed k v found pk := by
    obtain ⟨tr, mem, ne, rfl, rfl⟩ := stored.only k v found pk
    exact ⟨tr.info, rfl, rfl, small tr mem ne⟩
  disjoint f f' record record' lt := by
    obtain ⟨tr, mem, -, -, same⟩ := stored.only _ _ record (finalizedKey_isPrefixOf f)
    obtain ⟨tr', mem', -, -, same'⟩ := stored.only _ _ record' (finalizedKey_isPrefixOf f')
    cases same
    cases same'
    exact disjoint tr mem tr' mem' lt

/-- On a healthy store holding a tree as `Stored` says, each of its real leaves gets the
siblings of its path in the padded tree, with the tree's index, root and extra data. -/
theorem Stored.getProofs {m : Merkle} {trees : List BuiltTree}
    (stored : Stored nodeGeneratorFn m.db.store trees) (view : FinalizedView m.db.store)
    (healthy : m.db.faults = []) {tr : BuiltTree} (mem : tr ∈ trees)
    (fits : tr.leaves.length ≤ 2 ^ tr.height) {i : Nat} (small : i < 2 ^ 64)
    (lo : tr.start ≤ i) (hi : i < tr.start + tr.leaves.length) :
    getProofs i m = .ok (proofPath nodeGeneratorFn (leafOf tr.padded) tr.height 0 (i - tr.start),
      tr.index, tr.root, tr.extraData) m := by
  have ne : tr.leaves ≠ [] := fun empty => by rw [empty, List.length_nil] at hi; omega
  have path := siblingProofs_of_stored nodeGeneratorFn (leafOf tr.padded) healthy
    (t := tr.index) (H := tr.height) (fun h j lt hj => stored.nodes tr mem ne h j
      (by rw [Nat.pow_div lt.le (by decide)]; exact hj)) tr.height 0 (i - tr.start)
    (Nat.zero_add _) (by rw [Nat.sub_zero]; omega)
  rw [getProofs_of_covers view healthy (stored.records tr mem ne) ⟨lo, hi⟩ small]
  simp only [BuiltTree.info]
  rw [bind_of_ok path]
  rfl

theorem BuiltTree.foldl_path_eq_root (comm : ∀ a b, nodeGeneratorFn a b = nodeGeneratorFn b a)
    {tr : BuiltTree} (root : tr.root = merkleRoot nodeGeneratorFn tr.height tr.padded)
    (fits : tr.leaves.length ≤ 2 ^ tr.height) {n : Nat} (real : n < tr.leaves.length) :
    (proofPath nodeGeneratorFn (leafOf tr.padded) tr.height 0 n).foldl nodeGeneratorFn
      (tr.leaves.getD n []) = tr.root := by
  have fold := foldl_proofPath nodeGeneratorFn comm (leafOf tr.padded) tr.height 0 n
  rw [show nodeAt nodeGeneratorFn (leafOf tr.padded) 0 n = tr.leaves.getD n [] from
    leafOf_padLeaves _ real] at fold
  rw [fold, Nat.zero_add, Nat.div_eq_of_lt (by omega), root]
  exact (merkleRoot_eq_nodeAt nodeGeneratorFn (padLeaves_length fits)).symm

variable {nodeGeneratorFn} {emptyRootHash : EmptyRootHash} {m m₁ m' : Merkle} {g : Ghost}

theorem Inv.init {t s : Nat}
    (empty : ∀ k v, m.db.store.get k = some v → finalizedTreeKey.isPrefixOf k = false)
    (ht : t < 2 ^ 64) (hs : s < 2 ^ 64) (run : initializeWorkingTree t s m = .ok () m') :
    Inv nodeGeneratorFn m' ⟨[], t, s, [], false⟩ := by
  obtain ⟨-, s1, rfl⟩ := initializeWorkingTree_ok run
  refine ⟨⟨_, rfl, .building rfl rfl rfl rfl (Frontier.fresh nodeGeneratorFn _ t s)⟩, ht.le,
    (fun _ => ht), s1, (by simp; omega), (by simp), (by simp), (by simp), (by simp),
    ⟨(by simp), (by simp), ?_⟩⟩
  intro k v found pk
  rw [empty k v found] at pk
  cases pk

theorem Inv.insert (inv : Inv nodeGeneratorFn m g) (active : g.finalized = false) {x : Bytes}
    (room : g.start + (g.leaves ++ [x]).length ≤ 2 ^ 64)
    (run : insertLeaf nodeGeneratorFn x m = .ok () m') :
    Inv nodeGeneratorFn m' { g with leaves := g.leaves ++ [x] } := by
  obtain ⟨wt, hw, working⟩ := inv.working
  cases working with
  | finalized fin => rw [active] at fin; cases fin
  | building _ done index start frontier =>
    have small : g.leaves.length < 2 ^ 64 := by have := inv.start_pos; simp at room; omega
    obtain ⟨wt', hw', index', start', done', frontier'⟩ :=
      frontier.insert nodeGeneratorFn hw small x run
    have count : wt.leafCount < 2 ^ 64 := by rw [frontier.count]; exact Nat.mod_lt _ (by decide)
    have frame := insertLeaf_frame nodeGeneratorFn hw count x
    rw [run] at frame
    have current : wt.index < 2 ^ 64 := index ▸ inv.building active
    exact { inv with
      working := ⟨wt', hw', .building active (done'.trans done) (index'.trans index)
        (start'.trans start) frontier'⟩
      no_wrap := room
      stored := inv.stored.frame nodeGeneratorFn fun k key => frame k fun path =>
        not_nodeOf_later current (fun tr mem => index ▸ (inv.before tr mem).1) key
          (path.later count).nodeOf }

/-- A finalized tree, committed, joins the stored trees; the ghost moves to the next. -/
theorem Inv.finalize (inv : Inv nodeGeneratorFn m g) (active : g.finalized = false)
    {e root : Bytes} {kvs : List (RawKV Value)}
    (run : finalizeWorkingTree nodeGeneratorFn emptyRootHash e m = .ok (kvs, root) m₁)
    (commit : dbBatchSet kvs m₁ = .ok () m') :
    Inv nodeGeneratorFn m' ⟨g.trees ++ [⟨g.index, g.start, g.leaves, e, root⟩], g.index + 1,
      g.start + g.leaves.length, [], true⟩ := by
  obtain ⟨wt, hw, working⟩ := inv.working
  cases working with
  | finalized fin => rw [active] at fin; cases fin
  | building _ done index start frontier =>
    have small : g.leaves.length < 2 ^ 64 := by have := inv.start_pos; have := inv.no_wrap; omega
    have count : wt.leafCount < 2 ^ 64 := by rw [frontier.count]; exact Nat.mod_lt _ (by decide)
    have current : wt.index < 2 ^ 64 := index ▸ inv.building active
    have frame := finalizeWorkingTree_frame nodeGeneratorFn emptyRootHash e hw count
    rw [run] at frame
    have kept : Stored nodeGeneratorFn m₁.db.store g.trees :=
      inv.stored.frame nodeGeneratorFn fun k key => frame k fun later =>
        not_nodeOf_later current (fun tr mem => index ▸ (inv.before tr mem).1) key later.nodeOf
    obtain rfl := dbBatchSet_ok commit
    have before : ∀ tr ∈ g.trees ++ [⟨g.index, g.start, g.leaves, e, root⟩],
        tr.index < g.index + 1 ∧ tr.start + tr.leaves.length ≤ g.start + g.leaves.length := by
      intro tr mem
      rcases List.mem_append.mp mem with mem | mem
      · have := inv.before tr mem; omega
      · rw [List.mem_singleton.mp mem]; exact ⟨Nat.lt_succ_self _, le_rfl⟩
    have starts_pos : ∀ tr ∈ g.trees ++ [⟨g.index, g.start, g.leaves, e, root⟩],
        1 ≤ tr.start := by
      intro tr mem
      rcases List.mem_append.mp mem with mem | mem
      · exact inv.starts_pos tr mem
      · rw [List.mem_singleton.mp mem]; exact inv.start_pos
    have disjoint : ∀ a ∈ g.trees ++ [⟨g.index, g.start, g.leaves, e, root⟩],
        ∀ b ∈ g.trees ++ [⟨g.index, g.start, g.leaves, e, root⟩], a.start < b.start →
          a.start + a.leaves.length ≤ b.start := by
      intro a ma b mb lt
      rcases List.mem_append.mp ma with ma | ma <;> rcases List.mem_append.mp mb with mb | mb
      · exact inv.disjoint a ma b mb lt
      · rw [List.mem_singleton.mp mb]; exact (inv.before a ma).2
      · rw [List.mem_singleton.mp ma] at lt ⊢; have := inv.before b mb; simp at lt; omega
      · rw [List.mem_singleton.mp ma, List.mem_singleton.mp mb] at lt; exact absurd lt (lt_irrefl _)
    have spec := finalizeWorkingTree_ok nodeGeneratorFn emptyRootHash hw frontier small run
    split at spec
    · rename_i empty
      obtain ⟨rfl, rfl, rfl⟩ := spec
      refine ⟨⟨_, rfl, .finalized rfl rfl rfl (by simp [index])
        (by simp [start, frontier.count, empty])⟩, inv.building active,
        (fun fin => by cases fin), Nat.le_add_right_of_le inv.start_pos,
        (by simpa using inv.no_wrap), before, starts_pos, disjoint, (fun tr mem ne => ?_),
        kept.append_empty nodeGeneratorFn empty⟩
      rcases List.mem_append.mp mem with mem | mem
      · exact inv.roots tr mem ne
      · rw [List.mem_singleton.mp mem] at ne; exact absurd empty ne
    · rename_i nonempty
      obtain ⟨wt', hw', index', start', done', frontier', root_eq, rfl⟩ := spec
      have full := padLeaves_length (heightOf_bounds (List.length_pos.mpr nonempty) small).1
      refine ⟨⟨_, hw', .finalized rfl done' rfl (by simp [index', index])
        (by simp [start', start])⟩,
        inv.building active, (fun fin => by cases fin), Nat.le_add_right_of_le inv.start_pos,
        (by simpa using inv.no_wrap), before, starts_pos, disjoint, (fun tr mem ne => ?_), ?_⟩
      · rcases List.mem_append.mp mem with mem | mem
        · exact inv.roots tr mem ne
        · rw [List.mem_singleton.mp mem]; exact root_eq
      · rw [index, start, Store.batchSet_single]
        dsimp only
        refine kept.append_record nodeGeneratorFn ⟨g.index, g.start, g.leaves, e, root⟩ nonempty
          (fun h j lt => ?_) ?_ ?_
        · show m₁.db.store.get (prefixedNodeKey g.index h j) = _
          rw [← index, ← index']
          exact frontier'.nodes h j (by rw [full]; exact lt)
        · have := inv.no_wrap
          have := List.length_pos.mpr nonempty
          show g.start < 2 ^ 64
          omega
        · intro a mem ane
          have := inv.before a mem
          have := List.length_pos.mpr ane
          show a.start < g.start
          omega

/-- After a finalized tree, a working tree started at the uint64 successors of its index
and end, with the stored trees kept, is the ghost's next tree. -/
theorem Inv.next (inv : Inv nodeGeneratorFn m g) (fin : g.finalized = true) {wt : TreeInfo}
    (hw : m.workingTree = some wt)
    (valid : 1 ≤ (wt.index + 1) % 2 ^ 64 ∧ 1 ≤ (wt.startLeafIndex + wt.leafCount) % 2 ^ 64)
    (fresh : m'.workingTree = some ⟨(wt.index + 1) % 2 ^ 64,
      (wt.startLeafIndex + wt.leafCount) % 2 ^ 64, 0, fun _ => none, false⟩)
    (stored : Stored nodeGeneratorFn m'.db.store g.trees) :
    Inv nodeGeneratorFn m' g.next := by
  obtain ⟨wt₀, hw₀, working⟩ := inv.working
  rw [hw] at hw₀
  cases hw₀
  cases working with
  | building active => rw [fin] at active; cases active
  | finalized _ _ empty index start =>
    have no_wrap := inv.no_wrap
    rw [empty, List.length_nil, Nat.add_zero] at no_wrap
    have index_lt : g.index < 2 ^ 64 := by
      rcases Nat.lt_or_eq_of_le inv.index_le with lt | eq
      · exact lt
      · rw [index, eq, Nat.mod_self] at valid; omega
    have start_lt : g.start < 2 ^ 64 := by
      rcases Nat.lt_or_eq_of_le no_wrap with lt | eq
      · exact lt
      · rw [start, eq, Nat.mod_self] at valid; omega
    rw [index, start, Nat.mod_eq_of_lt index_lt, Nat.mod_eq_of_lt start_lt] at fresh
    exact { inv with
      working := ⟨_, fresh, .building rfl rfl rfl rfl
        (empty ▸ Frontier.fresh nodeGeneratorFn _ g.index g.start)⟩
      building := fun _ => index_lt
      stored := stored }

theorem Inv.nextInit (inv : Inv nodeGeneratorFn m g) (fin : g.finalized = true)
    {wt : TreeInfo} (hw : m.workingTree = some wt)
    (run : initializeWorkingTree ((wt.index + 1) % 2 ^ 64)
      ((wt.startLeafIndex + wt.leafCount) % 2 ^ 64) m = .ok () m') :
    Inv nodeGeneratorFn m' g.next := by
  obtain ⟨i1, s1, rfl⟩ := initializeWorkingTree_ok run
  exact inv.next fin hw ⟨i1, s1⟩ rfl inv.stored

theorem Inv.nextLoad (inv : Inv nodeGeneratorFn m g) (fin : g.finalized = true)
    {version : Nat} (save : saveWorkingTree version m = .ok () m₁)
    (load : loadWorkingTree version m₁ = .ok () m') :
    Inv nodeGeneratorFn m' g.next := by
  obtain ⟨wt, hw, working⟩ := inv.working
  obtain rfl := saveWorkingTree_ok version hw save
  obtain ⟨same, spec⟩ := loadWorkingTree_ok (by rw [Store.get_set, if_pos rfl]) load
  have done : wt.done = true := by
    cases working with
    | building active => rw [fin] at active; cases active
    | finalized _ done => exact done
  rw [if_pos done] at spec
  refine inv.next fin hw ⟨spec.1, spec.2.1⟩ spec.2.2 (inv.stored.frame nodeGeneratorFn ?_)
  intro k key
  rw [same, Store.get_set, if_neg]
  rintro rfl
  rcases key with pk | ⟨tr, -, -, h, j, same⟩
  · rw [working_not_finalized] at pk; cases pk
  · exact prefixedNodeKey_ne_working _ _ _ _ same.symm

end Inv

section Run

variable {nodeGeneratorFn : NodeGeneratorFn} {emptyRootHash : EmptyRootHash}

/-- Every engine the lifecycle reaches without wrapping its leaf indices stands to its
ghost as `Inv` says. -/
theorem Reachable.inv {m : Merkle} {g : Ghost}
    (run : Reachable nodeGeneratorFn emptyRootHash m g) :
    g.start + g.leaves.length ≤ 2 ^ 64 → Inv nodeGeneratorFn m g := by
  induction run with
  | init empty ht hs step => exact fun _ => Inv.init empty ht hs step
  | insert _ active step ih =>
    exact fun room => (ih (by simp at room; omega)).insert active room step
  | finalize _ active step commit ih =>
    exact fun room => (ih (by simpa using room)).finalize active step commit
  | nextInit _ fin hw step ih => exact fun room => (ih room).nextInit fin hw step
  | nextLoad _ fin save load ih => exact fun room => (ih room).nextLoad fin save load

variable {m : Merkle} {g : Ghost}

theorem Inv.view (inv : Inv nodeGeneratorFn m g) : FinalizedView m.db.store :=
  inv.stored.view nodeGeneratorFn (fun tr mem ne => by
    have := (inv.before tr mem).2
    have := inv.no_wrap
    have := List.length_pos.mpr ne
    omega) inv.disjoint

theorem Inv.fits (inv : Inv nodeGeneratorFn m g) {tr : BuiltTree} (mem : tr ∈ g.trees)
    (ne : tr.leaves ≠ []) : tr.leaves.length ≤ 2 ^ tr.height :=
  (heightOf_bounds (List.length_pos.mpr ne)
    (by have := (inv.before tr mem).2; have := inv.starts_pos tr mem; have := inv.no_wrap; omega)).1

end Run

section Proofs

variable (nodeGeneratorFn : NodeGeneratorFn) (emptyRootHash : EmptyRootHash)

/-- For a commutative pairing, on every run of the tree lifecycle whose leaf indices do not
wrap and whose store answers, `GetProofs` serves each leaf of each finalized tree: the
tree's index, the root its finalization returned, its extra data, and one sibling per
level that folds the leaf up to that root. -/
theorem getProofs_folds_to_root (comm : ∀ a b, nodeGeneratorFn a b = nodeGeneratorFn b a)
    {m : Merkle} {g : Ghost} (run : Reachable nodeGeneratorFn emptyRootHash m g)
    (noWrap : g.start + g.leaves.length ≤ 2 ^ 64) (healthy : m.db.faults = [])
    {tr : BuiltTree} (built : tr ∈ g.trees) {i : Nat} (lo : tr.start ≤ i)
    (hi : i < tr.start + tr.leaves.length) :
    ∃ proofs, getProofs i m = .ok (proofs, tr.index, tr.root, tr.extraData) m ∧
      proofs.length = heightOf tr.leaves.length ∧
      proofs.foldl nodeGeneratorFn (tr.leaves.getD (i - tr.start) []) = tr.root := by
  have inv := run.inv noWrap
  have ne : tr.leaves ≠ [] := fun empty => by rw [empty, List.length_nil] at hi; omega
  have fits := inv.fits built ne
  have small : i < 2 ^ 64 := by have := (inv.before tr built).2; have := inv.no_wrap; omega
  refine ⟨_, inv.stored.getProofs nodeGeneratorFn inv.view healthy built fits small lo hi,
    proofPath_length .., ?_⟩
  exact BuiltTree.foldl_path_eq_root nodeGeneratorFn comm (inv.roots tr built ne) fits (by omega)

/-- The three leaves [1], [2], [3] under the sorted pairing: leaf 3 gets two siblings that
fold [3] up to the root. -/
theorem getProofs_folds_to_root_three_leaves :
    ∃ m root proofs, Reachable sortedConcat [] m
        ⟨[⟨1, 1, [[1], [2], [3]], [], root⟩], 2, 4, [], true⟩ ∧
      getProofs 3 m = .ok (proofs, 1, root, []) m ∧ proofs.length = 2 ∧
      proofs.foldl sortedConcat [3] = root := by
  obtain ⟨m, root, run, healthy⟩ := Reachable.single sortedConcat [] [[1], [2], [3]] []
  obtain ⟨proofs, get, len, fold⟩ := getProofs_folds_to_root sortedConcat [] sortedConcat_comm
    run (by simp) healthy (List.mem_singleton_self _) (i := 3) (by simp) (by simp)
  have height : heightOf 3 = 2 :=
    le_antisymm (Nat.size_le.mpr (by decide)) (Nat.lt_size.mpr (by decide))
  exact ⟨m, root, proofs, run, get, len.trans height, fold⟩

/-- On every run of the lifecycle whose leaf indices do not wrap and whose store answers,
`GetProofs` returns `ErrUnfinalizedTree` exactly for the uint64 leaves no finalized record
covers, and never its "leaf is not found in tree" error. -/
theorem getProofs_unfinalized_iff_uncovered {m : Merkle} {g : Ghost}
    (run : Reachable nodeGeneratorFn emptyRootHash m g)
    (noWrap : g.start + g.leaves.length ≤ 2 ^ 64) (healthy : m.db.faults = []) {i : Nat}
    (small : i < 2 ^ 64) :
    ((∃ m', getProofs i m = .error .unfinalizedTree m') ↔
      ¬ ∃ f, FinalizedRecord m.db.store f ∧ Covers f i) ∧
      ∀ j t m', getProofs i m ≠ .error (.leafNotFound j t) m' :=
  ⟨(run.inv noWrap).view.unfinalized_iff healthy small,
    getProofs_ne_leafNotFound (run.inv noWrap).view small⟩

theorem getProofs_unfinalized_iff_uncovered_three_leaves :
    ∃ m root, Reachable sortedConcat [] m ⟨[⟨1, 1, [[1], [2], [3]], [], root⟩], 2, 4, [], true⟩ ∧
      ((∃ m', getProofs 5 m = .error .unfinalizedTree m') ↔
        ¬ ∃ f, FinalizedRecord m.db.store f ∧ Covers f 5) ∧
      ∀ j t m', getProofs 5 m ≠ .error (.leafNotFound j t) m' := by
  obtain ⟨m, root, run, healthy⟩ := Reachable.single sortedConcat [] [[1], [2], [3]] []
  exact ⟨m, root, run, getProofs_unfinalized_iff_uncovered sortedConcat [] run (by simp) healthy
    (by decide)⟩

end Proofs

end OpinitBots.Merkle
