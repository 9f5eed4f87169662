import OpinitBots.Merkle.Finalize

/-! `GetProofs`: the seek for the greatest finalized start at or below the leaf, the range
check, and the sibling reads. Over a store whose finalized namespace holds records keyed
by their start with non-overlapping leaf ranges, the outcome is decided by which record
covers the leaf. -/
namespace OpinitBots.Merkle

section Reads

variable {m m' : Merkle} {α : Type}

theorem getNode_of_stored {t h j : Nat} {d : Bytes} (healthy : m.db.faults = [])
    (stored : m.db.store.get (prefixedNodeKey t h j) = some (.raw d)) :
    getNode t h j m = .ok d m := by
  have read : dbGet (prefixedNodeKey t h j) m = .ok (.raw d) m :=
    dbCall_read healthy (by simp only [stored])
  simp only [getNode]
  rw [bind_of_ok read]
  rfl

theorem getNode_error {t h j : Nat} {e : MerkleError} (err : getNode t h j m = .error e m') :
    e = .notFound ∨ e = .store := by
  simp only [getNode] at err
  cases read : dbGet (prefixedNodeKey t h j) m with
  | ok v m₁ => rw [bind_of_ok read] at err; cases err
  | error e' m₁ =>
    rw [bind_of_error read] at err
    cases err
    rcases dbCall_error read with store | lookup
    · exact .inr store
    · left
      split at lookup <;> cases lookup
      rfl

theorem siblingProofs_error {t : Nat} {e : MerkleError} :
    ∀ {k h j : Nat} {m m' : Merkle}, siblingProofs t k h j m = .error e m' →
      e = .notFound ∨ e = .store
  | 0, _, _, _, _, err => by cases err
  | k + 1, h, j, m, m', err => by
    simp only [siblingProofs] at err
    cases node : getNode t h (j ^^^ 1) m with
    | error e' m₁ => rw [bind_of_error node] at err; cases err; exact getNode_error node
    | ok d m₁ =>
      rw [bind_of_ok node] at err
      cases rest : siblingProofs t k (h + 1) (j / 2) m₁ with
      | error e' m₂ => rw [bind_of_error rest] at err; cases err; exact siblingProofs_error rest
      | ok ps m₂ => rw [bind_of_ok rest] at err; cases err

theorem siblingProofs_of_stored (nodeGeneratorFn : NodeGeneratorFn) (leaf : Nat → Bytes)
    {t H : Nat} (healthy : m.db.faults = [])
    (stored : ∀ h j, h < H → j < 2 ^ (H - h) →
      m.db.store.get (prefixedNodeKey t h j) = some (.raw (nodeAt nodeGeneratorFn leaf h j))) :
    ∀ k h j, h + k = H → j < 2 ^ (H - h) →
      siblingProofs t k h j m = .ok (proofPath nodeGeneratorFn leaf k h j) m
  | 0, _, _, _, _ => rfl
  | k + 1, h, j, height, lt => by
    have half : 2 ^ (H - h) = 2 * 2 ^ (H - (h + 1)) := by
      rw [← Nat.pow_succ']
      congr 1
      omega
    have sibling : j ^^^ 1 < 2 ^ (H - h) := by rw [xor_one_eq]; omega
    simp only [siblingProofs]
    rw [bind_of_ok (getNode_of_stored healthy (stored h _ (by omega) sibling)),
      bind_of_ok (siblingProofs_of_stored nodeGeneratorFn leaf healthy stored k (h + 1) (j / 2)
        (by omega) (by omega))]
    rfl

end Reads

section View

def FinalizedRecord (store : Store Value) (f : FinalizedTreeInfo) : Prop :=
  store.get f.key = some (.finalizedTreeInfo f)

def Covers (f : FinalizedTreeInfo) (i : Nat) : Prop :=
  f.startLeafIndex ≤ i ∧ i < f.startLeafIndex + f.leafCount

/-- The finalized namespace as the tree lifecycle keeps it: every key under the prefix
holds the record of a tree starting there, and no two records' leaf ranges overlap. -/
structure FinalizedView (store : Store Value) : Prop where
  keyed : ∀ k v, store.get k = some v → finalizedTreeKey.isPrefixOf k →
    ∃ f, k = f.key ∧ v = .finalizedTreeInfo f ∧ f.startLeafIndex < 2 ^ 64
  disjoint : ∀ f g, FinalizedRecord store f → FinalizedRecord store g →
    f.startLeafIndex < g.startLeafIndex → f.startLeafIndex + f.leafCount ≤ g.startLeafIndex

theorem finalizedTreeKey_isPrefixOf (s : Nat) :
    finalizedTreeKey.isPrefixOf (prefixedFinalizedTreeKey s) := by
  simp [prefixedFinalizedTreeKey, List.isPrefixOf_iff_prefix]

theorem finalizedKey_isPrefixOf (f : FinalizedTreeInfo) : finalizedTreeKey.isPrefixOf f.key :=
  finalizedTreeKey_isPrefixOf f.startLeafIndex

theorem compareBytes_finalizedKey {a b : Nat} (ha : a < 2 ^ 64) (hb : b < 2 ^ 64) :
    compareBytes (prefixedFinalizedTreeKey a) (prefixedFinalizedTreeKey b) = compare a b := by
  rw [prefixedFinalizedTreeKey, prefixedFinalizedTreeKey, compareBytes_append_left,
    compareBytes_fromUint64Key ha hb]

variable {store : Store Value}

theorem FinalizedView.start_lt (view : FinalizedView store) {f : FinalizedTreeInfo}
    (record : FinalizedRecord store f) : f.startLeafIndex < 2 ^ 64 := by
  obtain ⟨g, key, value, small⟩ :=
    view.keyed _ _ record (finalizedTreeKey_isPrefixOf f.startLeafIndex)
  cases value
  exact small

/-- The seek from leaf `i` returns the record with the greatest start at most `i`. -/
theorem FinalizedView.seek_eq (view : FinalizedView store) {f : FinalizedTreeInfo} {i : Nat}
    (record : FinalizedRecord store f) (le : f.startLeafIndex ≤ i) (small : i < 2 ^ 64)
    (greatest : ∀ g, FinalizedRecord store g → g.startLeafIndex ≤ i →
      g.startLeafIndex ≤ f.startLeafIndex) :
    store.seekPrevInclusiveKey finalizedTreeKey (prefixedFinalizedTreeKey i) =
      some (f.key, .finalizedTreeInfo f) := by
  have fs := view.start_lt record
  refine store.seekPrevInclusiveKey_eq_some record (finalizedTreeKey_isPrefixOf _)
    (by rw [FinalizedTreeInfo.key, compareBytes_finalizedKey fs small]; simp [Nat.compare_eq_gt, le])
    fun k v found pk lek => ?_
  obtain ⟨g, rfl, rfl, gs⟩ := view.keyed k v found pk
  rw [FinalizedTreeInfo.key, compareBytes_finalizedKey gs small] at lek
  rw [FinalizedTreeInfo.key, FinalizedTreeInfo.key, compareBytes_finalizedKey gs fs]
  simp only [ne_eq, Nat.compare_eq_gt, not_lt] at lek ⊢
  exact greatest g found lek

end View

section GetProofs

variable {m : Merkle} {i : Nat}

theorem notFoundAsUnfinalized_of_ok {x : MerkleM α} {a : α} {m' : Merkle} (ok : x m = .ok a m') :
    notFoundAsUnfinalized x m = .ok a m' := by
  simp [notFoundAsUnfinalized, ok]

theorem getProofs_of_seek {f : FinalizedTreeInfo} {k : Bytes}
    (seek : notFoundAsUnfinalized (dbSeekPrevInclusiveKey finalizedTreeKey
      (prefixedFinalizedTreeKey i)) m = .ok (k, .finalizedTreeInfo f) m) :
    getProofs i m =
      if i < f.startLeafIndex then .error (.leafNotFound i f.treeIndex) m
      else if i - f.startLeafIndex ≥ f.leafCount then .error .unfinalizedTree m
      else (siblingProofs f.treeIndex f.treeHeight 0 (i - f.startLeafIndex) >>= fun proofs =>
        pure (proofs, f.treeIndex, f.root, f.extraData)) m := by
  simp only [getProofs]
  rw [bind_of_ok seek]
  simp only [unmarshalFinalizedTreeInfo]
  split_ifs <;> rfl

/-- On a healthy store with a lifecycle-shaped finalized namespace, a leaf covered by the
record `f` gets `f`'s sibling reads, its index, root and extra data. -/
theorem getProofs_of_covers (view : FinalizedView m.db.store) (healthy : m.db.faults = [])
    {f : FinalizedTreeInfo} (record : FinalizedRecord m.db.store f) (covers : Covers f i)
    (small : i < 2 ^ 64) :
    getProofs i m = (siblingProofs f.treeIndex f.treeHeight 0 (i - f.startLeafIndex) >>=
      fun proofs => pure (proofs, f.treeIndex, f.root, f.extraData)) m := by
  obtain ⟨lo, hi⟩ := covers
  have seek := view.seek_eq record lo small fun g rg le => by
    by_contra over
    have := view.disjoint f g record rg (by omega)
    omega
  have read : notFoundAsUnfinalized (dbSeekPrevInclusiveKey finalizedTreeKey
      (prefixedFinalizedTreeKey i)) m = .ok (f.key, .finalizedTreeInfo f) m :=
    notFoundAsUnfinalized_of_ok (dbCall_read healthy (by simp only [seek]))
  rw [getProofs_of_seek read, if_neg (by omega), if_neg (by omega)]

/-- On such a store, a leaf no record covers gets `ErrUnfinalizedTree`. -/
theorem getProofs_of_uncovered (view : FinalizedView m.db.store) (healthy : m.db.faults = [])
    (small : i < 2 ^ 64) (uncovered : ∀ f, FinalizedRecord m.db.store f → ¬ Covers f i) :
    getProofs i m = .error .unfinalizedTree m := by
  cases seek : m.db.store.seekPrevInclusiveKey finalizedTreeKey (prefixedFinalizedTreeKey i) with
  | none =>
    have read : notFoundAsUnfinalized (α := Bytes × Value) (dbSeekPrevInclusiveKey
        finalizedTreeKey (prefixedFinalizedTreeKey i)) m = .error .unfinalizedTree m := by
      unfold notFoundAsUnfinalized dbSeekPrevInclusiveKey
      rw [dbCall_read_error (e := .notFound) healthy (by simp only [seek])]
    simp only [getProofs]
    rw [bind_of_error read]
  | some e =>
    obtain ⟨k, v⟩ := e
    obtain ⟨found, pk, le⟩ := m.db.store.seekPrevInclusiveKey_found seek
    obtain ⟨f, rfl, rfl, fs⟩ := view.keyed k v found pk
    rw [FinalizedTreeInfo.key, compareBytes_finalizedKey fs small] at le
    simp only [ne_eq, Nat.compare_eq_gt, not_lt] at le
    have past : f.startLeafIndex + f.leafCount ≤ i := by
      by_contra inside
      exact uncovered f found ⟨le, by omega⟩
    have read : notFoundAsUnfinalized (dbSeekPrevInclusiveKey finalizedTreeKey
        (prefixedFinalizedTreeKey i)) m = .ok (f.key, .finalizedTreeInfo f) m :=
      notFoundAsUnfinalized_of_ok (dbCall_read healthy (by simp only [seek]))
    rw [getProofs_of_seek read, if_neg (by omega), if_pos (by omega)]

theorem notFoundAsUnfinalized_ok {x : MerkleM α} {a : α} {m' : Merkle}
    (ok : notFoundAsUnfinalized x m = .ok a m') : x m = .ok a m' := by
  cases h : x m with
  | ok a' s => simpa [notFoundAsUnfinalized, h] using ok
  | error e s => cases e <;> simp [notFoundAsUnfinalized, h] at ok

theorem notFoundAsUnfinalized_error {x : MerkleM α} {e : MerkleError} {m' : Merkle}
    (err : notFoundAsUnfinalized x m = .error e m') :
    e = .unfinalizedTree ∨ x m = .error e m' := by
  cases h : x m with
  | ok a' s => simp [notFoundAsUnfinalized, h] at err
  | error e' s =>
    cases e' <;> simp [notFoundAsUnfinalized, h] at err <;> simp [err]

theorem getProofs_ne_leafNotFound (view : FinalizedView m.db.store) (small : i < 2 ^ 64)
    (j t : Nat) (m' : Merkle) : getProofs i m ≠ .error (.leafNotFound j t) m' := by
  intro err
  simp only [getProofs] at err
  cases seek : notFoundAsUnfinalized (dbSeekPrevInclusiveKey finalizedTreeKey
      (prefixedFinalizedTreeKey i)) m with
  | error e m₁ =>
    rw [bind_of_error seek] at err
    cases err
    rcases notFoundAsUnfinalized_error seek with h | call
    · cases h
    · rcases dbCall_error call with h | op
      · cases h
      · split at op <;> cases op
  | ok r m₁ =>
    rw [bind_of_ok seek] at err
    obtain ⟨s, op, -⟩ := dbCall_ok (notFoundAsUnfinalized_ok seek)
    cases found : m.db.store.seekPrevInclusiveKey finalizedTreeKey (prefixedFinalizedTreeKey i) with
    | none => simp [found] at op
    | some kv =>
      simp only [found, Except.ok.injEq, Prod.mk.injEq] at op
      obtain ⟨rfl, -⟩ := op
      obtain ⟨k, v⟩ := kv
      obtain ⟨get, pk, le⟩ := m.db.store.seekPrevInclusiveKey_found found
      obtain ⟨f, rfl, rfl, fs⟩ := view.keyed k v get pk
      rw [FinalizedTreeInfo.key, compareBytes_finalizedKey fs small] at le
      simp only [ne_eq, Nat.compare_eq_gt, not_lt] at le
      simp only [unmarshalFinalizedTreeInfo, if_neg (Nat.not_lt.mpr le)] at err
      split at err
      · cases err
      · rw [pure_bind_apply] at err
        cases proofs : siblingProofs f.treeIndex f.treeHeight 0 (i - f.startLeafIndex) m₁ with
        | ok ps m₂ => rw [bind_of_ok proofs] at err; cases err
        | error e m₂ =>
          rw [bind_of_error proofs] at err
          cases err
          rcases siblingProofs_error proofs with h | h <;> cases h

theorem FinalizedView.unfinalized_iff (view : FinalizedView m.db.store)
    (healthy : m.db.faults = []) (small : i < 2 ^ 64) :
    (∃ m', getProofs i m = .error .unfinalizedTree m') ↔
      ¬ ∃ f, FinalizedRecord m.db.store f ∧ Covers f i := by
  constructor
  · rintro ⟨m', err⟩ ⟨f, record, covers⟩
    rw [getProofs_of_covers view healthy record covers small] at err
    cases proofs : siblingProofs f.treeIndex f.treeHeight 0 (i - f.startLeafIndex) m with
    | ok ps m₁ => rw [bind_of_ok proofs] at err; cases err
    | error e m₁ =>
      rw [bind_of_error proofs] at err
      cases err
      rcases siblingProofs_error proofs with h | h <;> cases h
  · exact fun none => ⟨m, getProofs_of_uncovered view healthy small fun f r c => none ⟨f, r, c⟩⟩

end GetProofs

section Queries

variable {α β : Type}

/-- A call that, returned or failed, leaves the store and the working tree as it found
them; only the fault schedule moves on. -/
def ReadOnly (x : MerkleM α) : Prop :=
  ∀ m, (stateOf (x m)).db.store = m.db.store ∧ (stateOf (x m)).workingTree = m.workingTree

theorem ReadOnly.bind {x : MerkleM α} {f : α → MerkleM β} (first : ReadOnly x)
    (rest : ∀ a, ReadOnly (f a)) : ReadOnly (x >>= f) := fun m => by
  have before := first m
  cases run : x m with
  | ok a m₁ =>
    rw [run] at before
    rw [bind_of_ok run]
    exact ⟨(rest a m₁).1.trans before.1, (rest a m₁).2.trans before.2⟩
  | error e m₁ =>
    rw [run] at before
    rwa [bind_of_error run]

theorem readOnly_pure (a : α) : ReadOnly (pure a : MerkleM α) := fun _ => ⟨rfl, rfl⟩

theorem readOnly_throw (e : MerkleError) : ReadOnly (throw e : MerkleM α) := fun _ => ⟨rfl, rfl⟩

theorem readOnly_dbCall {op : Store Value → Except MerkleError (α × Store Value)}
    (read : ∀ s a s', op s = .ok (a, s') → s' = s) : ReadOnly (dbCall op) := fun m => by
  unfold dbCall
  split
  · exact ⟨rfl, rfl⟩
  · cases h : op m.db.store with
    | ok r => exact ⟨read _ r.1 r.2 h, rfl⟩
    | error e => exact ⟨rfl, rfl⟩

theorem ReadOnly.notFoundAsUnfinalized {x : MerkleM α} (query : ReadOnly x) :
    ReadOnly (notFoundAsUnfinalized x) := fun m => by
  have := query m
  unfold Merkle.notFoundAsUnfinalized
  split <;> simp_all only [stateOf_error, and_self]

theorem getNode_readOnly (t h j : Nat) : ReadOnly (getNode t h j) :=
  (readOnly_dbCall fun s a s' op => by split at op <;> cases op; rfl).bind fun _ => readOnly_pure _

theorem siblingProofs_readOnly (t : Nat) : ∀ k h j, ReadOnly (siblingProofs t k h j)
  | 0, _, _ => readOnly_pure _
  | k + 1, h, j => (getNode_readOnly t h (j ^^^ 1)).bind fun _ =>
    (siblingProofs_readOnly t k (h + 1) (j / 2)).bind fun _ => readOnly_pure _

/-- `GetProofs` is a query: whatever it returns and whichever store call fails, it changes
neither the store nor the working tree. -/
theorem getProofs_readOnly (i : Nat) : ReadOnly (getProofs i) := by
  unfold getProofs
  refine (readOnly_dbCall fun s a s' op => ?_).notFoundAsUnfinalized.bind fun ⟨_, value⟩ => ?_
  · split at op <;> cases op
    rfl
  · dsimp only
    split
    · -- each range check is a throw, or a pure unit, before the sibling reads
      split_ifs <;>
        refine ReadOnly.bind ?_ fun _ => (siblingProofs_readOnly _ _ _ _).bind fun _ => readOnly_pure _
      exacts [readOnly_throw _, readOnly_throw _, readOnly_pure _]
    · exact readOnly_throw _

end Queries

end OpinitBots.Merkle
