import OpinitBots.Merkle.Lifecycle

/-! `DeleteFutureFinalizedTrees` and `DeleteFutureWorkingTrees`: the keys they delete on a
store whose calls go through, and what `GetProofs` answers on a store of the lifecycle
once the finalized trees from a cutoff on are deleted. -/
namespace OpinitBots.Merkle

section Delete

/-- The store once `deleteFrom cutoff` has visited `es`: each visited key whose trailing
integer is at least the cutoff is deleted. -/
def pruneEntries (cutoff : Nat) : List (Bytes × Value) → Store Value → Store Value
  | [], s => s
  | e :: es, s => pruneEntries cutoff es
      (if toUint64Key (e.1.drop (e.1.length - 8)) ≥ cutoff then s.delete e.1 else s)

/-- The store a `DeleteFuture*` call from `cutoff` under `pfx` leaves. -/
def prunePrefixed (s : Store Value) (pfx : Bytes) (cutoff : Nat) : Store Value :=
  pruneEntries cutoff (s.prefixed pfx) s

/-- What a `DeleteFuture*` call is for: the keys under the prefix whose trailing 8-byte
integer is at least the cutoff are gone, and every other key reads as before. -/
def PrunedFrom (pfx : Bytes) (cutoff : Nat) (before after : Store Value) : Prop :=
  ∀ k, after.get k =
    if pfx.isPrefixOf k ∧ toUint64Key (k.drop (k.length - 8)) ≥ cutoff then none
    else before.get k

variable {m : Merkle}

theorem deleteFrom_healthy (cutoff : Nat) (key : Bytes) (v : Value)
    (healthy : m.db.faults = []) :
    deleteFrom cutoff key v m = .ok false { m with db :=
      ⟨if toUint64Key (key.drop (key.length - 8)) ≥ cutoff then m.db.store.delete key
        else m.db.store, []⟩ } := by
  obtain ⟨⟨store, faults⟩, wt⟩ := m
  subst healthy
  by_cases late : toUint64Key (key.drop (key.length - 8)) ≥ cutoff <;>
    simp only [deleteFrom, late, if_true, if_false] <;> rfl

theorem iterate_deleteFrom (cutoff : Nat) : ∀ (es : List (Bytes × Value)) {m : Merkle},
    m.db.faults = [] →
    iterate (deleteFrom cutoff) es m = .ok () { m with db := ⟨pruneEntries cutoff es m.db.store, []⟩ }
  | [], ⟨⟨_, _⟩, _⟩, healthy => by subst healthy; rfl
  | (key, v) :: es, m, healthy => by
    rw [iterate, bind_of_ok (deleteFrom_healthy cutoff key v healthy)]
    exact iterate_deleteFrom cutoff es rfl

theorem prefixedIterate_deleteFrom (pfx : Bytes) (cutoff : Nat) (healthy : m.db.faults = []) :
    prefixedIterate pfx (deleteFrom cutoff) m =
      .ok () { m with db := ⟨prunePrefixed m.db.store pfx cutoff, []⟩ } := by
  rw [prefixedIterate, bind_of_ok (x := dbPrefixed pfx) (dbCall_read healthy rfl)]
  exact iterate_deleteFrom cutoff _ healthy

theorem get_pruneEntries (cutoff : Nat) (k : Bytes) : ∀ (es : List (Bytes × Value)) (s : Store Value),
    (pruneEntries cutoff es s).get k =
      if k ∈ es.map Prod.fst ∧ toUint64Key (k.drop (k.length - 8)) ≥ cutoff then none
      else s.get k
  | [], s => by simp [pruneEntries]
  | e :: es, s => by
    rw [pruneEntries, get_pruneEntries cutoff k es]
    by_cases visited : e.1 = k
    · subst visited
      split_ifs <;> simp_all
    · split_ifs <;> simp_all

theorem prunePrefixed_prunedFrom (s : Store Value) (pfx : Bytes) (cutoff : Nat) :
    PrunedFrom pfx cutoff s (prunePrefixed s pfx cutoff) := by
  intro k
  rw [prunePrefixed, get_pruneEntries]
  by_cases doomed : pfx.isPrefixOf k ∧ toUint64Key (k.drop (k.length - 8)) ≥ cutoff
  · rw [if_pos doomed]
    split_ifs with visited
    · rfl
    · cases found : s.get k with
      | none => rfl
      | some v => exact absurd ⟨List.mem_map_of_mem Prod.fst
          (Store.mem_prefixed.mpr ⟨doomed.1, found⟩), doomed.2⟩ visited
  · rw [if_neg doomed, if_neg]
    rintro ⟨visited, late⟩
    obtain ⟨⟨k', v⟩, mem, rfl⟩ := List.mem_map.mp visited
    exact doomed ⟨(Store.mem_prefixed.mp mem).1, late⟩

theorem pruneEntries_of_kept (cutoff : Nat) : ∀ (es : List (Bytes × Value)) (s : Store Value),
    (∀ e ∈ es, toUint64Key (e.1.drop (e.1.length - 8)) < cutoff) → pruneEntries cutoff es s = s
  | [], _, _ => rfl
  | e :: es, s, kept => by
    rw [pruneEntries, if_neg (Nat.not_le.mpr (kept e (List.mem_cons_self _ _)))]
    exact pruneEntries_of_kept cutoff es s fun e' mem => kept e' (List.mem_cons_of_mem _ mem)

theorem prunePrefixed_idem (s : Store Value) (pfx : Bytes) (cutoff : Nat) :
    prunePrefixed (prunePrefixed s pfx cutoff) pfx cutoff = prunePrefixed s pfx cutoff := by
  refine pruneEntries_of_kept cutoff _ _ fun ⟨k, v⟩ mem => Nat.not_le.mp fun late => ?_
  obtain ⟨pk, found⟩ := Store.mem_prefixed.mp mem
  rw [prunePrefixed_prunedFrom s pfx cutoff k, if_pos ⟨pk, late⟩] at found
  cases found

theorem prefixedIterate_deleteFrom_idem (pfx : Bytes) (cutoff : Nat) :
    prefixedIterate pfx (deleteFrom cutoff) { m with db := ⟨prunePrefixed m.db.store pfx cutoff, []⟩ } =
      .ok () { m with db := ⟨prunePrefixed m.db.store pfx cutoff, []⟩ } := by
  rw [prefixedIterate_deleteFrom pfx cutoff rfl]
  simp only [prunePrefixed_idem]

end Delete

section Lifecycle

variable (nodeGeneratorFn : NodeGeneratorFn)

theorem trailing_fromUint64Key (pfx : Bytes) {s : Nat} (small : s < 2 ^ 64) :
    toUint64Key ((pfx ++ fromUint64Key s).drop ((pfx ++ fromUint64Key s).length - 8)) = s := by
  rw [List.length_append, fromUint64Key_length, Nat.add_sub_cancel, List.drop_left,
    toUint64Key_fromUint64Key, Nat.mod_eq_of_lt small]

theorem trailing_prefixedFinalizedTreeKey {s : Nat} (small : s < 2 ^ 64) :
    toUint64Key ((prefixedFinalizedTreeKey s).drop ((prefixedFinalizedTreeKey s).length - 8)) = s :=
  trailing_fromUint64Key finalizedTreeKey small

theorem trailing_prefixedWorkingTreeKey {v : Nat} (small : v < 2 ^ 64) :
    toUint64Key ((prefixedWorkingTreeKey v).drop ((prefixedWorkingTreeKey v).length - 8)) = v :=
  trailing_fromUint64Key workingTreeKey small

/-- Pruning the finalized namespace from `cutoff` keeps exactly the trees that start
before it. -/
theorem Stored.prune {store : Store Value} {trees : List BuiltTree}
    (stored : Stored nodeGeneratorFn store trees)
    (small : ∀ tr ∈ trees, tr.leaves ≠ [] → tr.start < 2 ^ 64) (cutoff : Nat) :
    Stored nodeGeneratorFn (prunePrefixed store finalizedTreeKey cutoff)
      (trees.filter fun tr => tr.start < cutoff) := by
  have pruned := prunePrefixed_prunedFrom store finalizedTreeKey cutoff
  refine ⟨fun tr mem ne => ?_, fun tr mem ne h j lt => ?_, fun k v found pk => ?_⟩
  · obtain ⟨mem, early⟩ := List.mem_filter.mp mem
    rw [FinalizedRecord, pruned, if_neg, ← FinalizedRecord]
    · exact stored.records tr mem ne
    · rintro ⟨-, late⟩
      rw [BuiltTree.info, FinalizedTreeInfo.key,
        trailing_prefixedFinalizedTreeKey (small tr mem ne)] at late
      simp only [decide_eq_true_eq] at early
      omega
  · rw [pruned, if_neg fun ⟨pk, _⟩ => by rw [node_not_finalized] at pk; cases pk]
    exact stored.nodes tr (List.mem_filter.mp mem).1 ne h j lt
  · rw [pruned] at found
    split at found
    · cases found
    · rename_i kept
      obtain ⟨tr, mem, ne, rfl, rfl⟩ := stored.only k v found pk
      refine ⟨tr, List.mem_filter.mpr ⟨mem, decide_eq_true (Nat.not_le.mp fun late => ?_)⟩,
        ne, rfl, rfl⟩
      rw [BuiltTree.info, FinalizedTreeInfo.key,
        trailing_prefixedFinalizedTreeKey (small tr mem ne)] at kept
      exact kept ⟨pk, late⟩

variable {nodeGeneratorFn} {m m' : Merkle} {g : Ghost}

/-- After the finalized trees from `cutoff` on are deleted from a store of the lifecycle,
a leaf of a tree that starts before the cutoff gets the answer it got before, and every
other uint64 leaf is unfinalized. -/
theorem Inv.getProofs_pruned (inv : Inv nodeGeneratorFn m g) (healthy : m.db.faults = [])
    {cutoff : Nat} (pruned : m'.db.store = prunePrefixed m.db.store finalizedTreeKey cutoff)
    (healthy' : m'.db.faults = []) {i : Nat} (small : i < 2 ^ 64) :
    ((∃ f, FinalizedRecord m.db.store f ∧ Covers f i ∧ f.startLeafIndex < cutoff) →
      ∃ r, getProofs i m = .ok r m ∧ getProofs i m' = .ok r m') ∧
    ((¬ ∃ f, FinalizedRecord m.db.store f ∧ Covers f i ∧ f.startLeafIndex < cutoff) →
      getProofs i m' = .error .unfinalizedTree m') := by
  have starts : ∀ tr ∈ g.trees, tr.leaves ≠ [] → tr.start < 2 ^ 64 := fun tr mem ne => by
    have := (inv.before tr mem).2
    have := inv.no_wrap
    have := List.length_pos.mpr ne
    omega
  have stored := inv.stored.prune nodeGeneratorFn starts cutoff
  rw [← pruned] at stored
  have view := stored.view nodeGeneratorFn
    (fun tr mem => starts tr (List.mem_filter.mp mem).1)
    fun a ma b mb => inv.disjoint a (List.mem_filter.mp ma).1 b (List.mem_filter.mp mb).1
  constructor
  · rintro ⟨f, record, ⟨lo, hi⟩, early⟩
    obtain ⟨tr, mem, ne, -, ⟨⟩⟩ := inv.stored.only _ _ record (finalizedKey_isPrefixOf f)
    have kept : tr ∈ g.trees.filter fun tr => tr.start < cutoff :=
      List.mem_filter.mpr ⟨mem, decide_eq_true early⟩
    exact ⟨_, inv.stored.getProofs nodeGeneratorFn inv.view healthy mem (inv.fits mem ne)
      small lo hi, stored.getProofs nodeGeneratorFn view healthy' kept (inv.fits mem ne)
      small lo hi⟩
  · refine fun uncovered => getProofs_of_uncovered view healthy' small fun f record covers =>
      uncovered ⟨f, ?_⟩
    obtain ⟨tr, kept, ne, -, ⟨⟩⟩ := stored.only _ _ record (finalizedKey_isPrefixOf f)
    obtain ⟨mem, early⟩ := List.mem_filter.mp kept
    exact ⟨inv.stored.records tr mem ne, covers, of_decide_eq_true early⟩

end Lifecycle

section Cutoff

variable (nodeGeneratorFn : NodeGeneratorFn) (emptyRootHash : EmptyRootHash)

/-- On a store that answers, both `DeleteFuture*` calls delete exactly the keys under their
prefix whose trailing integer is at least the cutoff, keep the working tree, and change
nothing when called again; on a store of the lifecycle whose leaf indices do not wrap,
`GetProofs` then answers as before for the leaves of trees that start before the cutoff,
and `ErrUnfinalizedTree` for every other uint64 leaf. -/
theorem deleteFuture_prunes_from_cutoff (cutoff : Nat) {m : Merkle} (healthy : m.db.faults = []) :
    (∃ m', deleteFutureFinalizedTrees cutoff m = .ok () m' ∧ m'.workingTree = m.workingTree ∧
      PrunedFrom finalizedTreeKey cutoff m.db.store m'.db.store ∧
      deleteFutureFinalizedTrees cutoff m' = .ok () m' ∧
      ∀ g, Reachable nodeGeneratorFn emptyRootHash m g → g.start + g.leaves.length ≤ 2 ^ 64 →
        ∀ i < 2 ^ 64,
          ((∃ f, FinalizedRecord m.db.store f ∧ Covers f i ∧ f.startLeafIndex < cutoff) →
            ∃ r, getProofs i m = .ok r m ∧ getProofs i m' = .ok r m') ∧
          ((¬ ∃ f, FinalizedRecord m.db.store f ∧ Covers f i ∧ f.startLeafIndex < cutoff) →
            getProofs i m' = .error .unfinalizedTree m')) ∧
    (∃ m', deleteFutureWorkingTrees cutoff m = .ok () m' ∧ m'.workingTree = m.workingTree ∧
      PrunedFrom workingTreeKey cutoff m.db.store m'.db.store ∧
      deleteFutureWorkingTrees cutoff m' = .ok () m') :=
  ⟨⟨_, prefixedIterate_deleteFrom _ cutoff healthy, rfl, prunePrefixed_prunedFrom _ _ _,
      prefixedIterate_deleteFrom_idem _ cutoff,
      fun _ run noWrap _ small => (run.inv noWrap).getProofs_pruned healthy rfl rfl small⟩,
    _, prefixedIterate_deleteFrom _ cutoff healthy, rfl, prunePrefixed_prunedFrom _ _ _,
      prefixedIterate_deleteFrom_idem _ cutoff⟩

/-- The three leaves [1], [2], [3] from leaf 1 and the cutoff 2: leaf 3 keeps its answer. -/
theorem deleteFuture_prunes_from_cutoff_three_leaves :
    ∃ m root m', Reachable sortedConcat [] m ⟨[⟨1, 1, [[1], [2], [3]], [], root⟩], 2, 4, [], true⟩ ∧
      deleteFutureFinalizedTrees 2 m = .ok () m' ∧
      ∃ r, getProofs 3 m = .ok r m ∧ getProofs 3 m' = .ok r m' := by
  obtain ⟨m, root, run, healthy⟩ := Reachable.single sortedConcat [] [[1], [2], [3]] []
  obtain ⟨⟨m', del, -, -, -, proofs⟩, -⟩ :=
    deleteFuture_prunes_from_cutoff sortedConcat [] 2 healthy
  have record := (run.inv (by simp)).stored.records _ (List.mem_singleton_self _) (by simp)
  exact ⟨m, root, m', run, del, (proofs _ run (by simp) 3 (by decide)).1
    ⟨_, record, ⟨(by decide : 1 ≤ 3), (by decide : 3 < 1 + 3)⟩, (by decide : 1 < 2)⟩⟩

end Cutoff

end OpinitBots.Merkle
