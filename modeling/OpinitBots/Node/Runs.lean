import OpinitBots.Node.Broadcaster
/-! The node's store across its calls, in any order, each returning or failing under the
fault schedule: pending txs saved and deleted, message lists deleted, and restarts. A failed
call writes nothing. A restart deletes each loaded pending tx
under the key of its own sequence, so a tx saved under its own sequence is gone after the
next restart that returns, while one saved under another sequence stays for good. A restart
writes the lists it queues under fresh timestamps and deletes none, so deleting the record of
every queued list afterwards puts the processed messages back as they were before it. -/
namespace OpinitBots.Node

/-- Every record under the pending-tx prefix is a pending tx under its own sequence. -/
def PendingKeyed (n : Node) : Prop :=
  ∀ e ∈ n.db.store.prefixed pendingTxsKey, ∃ t, e.2 = .pendingTx t ∧ e.1 = prefixedPendingTx t.sequence

section Keys

theorem prefixedPendingTx_inj {a b : Nat} (ha : a < 2 ^ 64) (hb : b < 2 ^ 64) :
    prefixedPendingTx a = prefixedPendingTx b ↔ a = b := by
  rw [prefixedPendingTx, prefixedPendingTx, List.append_cancel_left_eq, fromUint64Key_inj ha hb]

theorem prefixedProcessedMsgs_inj {a b : Nat} (ha : a < 2 ^ 64) (hb : b < 2 ^ 64) :
    prefixedProcessedMsgs a = prefixedProcessedMsgs b ↔ a = b := by
  rw [prefixedProcessedMsgs, prefixedProcessedMsgs, List.append_cancel_left_eq,
    fromUint64Key_inj ha hb]

theorem pending_prefix (sequence : Nat) :
    pendingTxsKey.isPrefixOf (prefixedPendingTx sequence) = true :=
  List.isPrefixOf_iff_prefix.mpr (List.prefix_append _ _)

theorem prefixedPendingTx_ne_processed (sequence timestamp : Nat) :
    prefixedPendingTx sequence ≠ prefixedProcessedMsgs timestamp := fun same => by
  have pending := pending_prefix sequence
  rw [same, pending_not_processed] at pending
  cases pending

theorem deleteProcessedMsgs_forM : ∀ (qs : List ProcessedMsgs) (n : Node),
    true ∉ n.db.faults.take qs.length →
    qs.forM (fun q => deleteProcessedMsgs q.timestamp) n = .ok () { n with
      db := ⟨n.db.store.batchSet ((qs.map fun q => prefixedProcessedMsgs q.timestamp).map
        fun k => ⟨k, none⟩), n.db.faults.drop qs.length⟩ }
  | [], ⟨⟨_, _⟩, _, _⟩, _ => rfl
  | q :: qs, n, answers => by
    rw [List.length_cons, DB.answers_succ] at answers
    have first : deleteProcessedMsgs q.timestamp n = .ok () { n with
        db := ⟨n.db.store.delete (prefixedProcessedMsgs q.timestamp), n.db.faults.tail⟩ } :=
      dbCall_ok answers.1
    rw [List.forM_cons', bind_ok first, deleteProcessedMsgs_forM qs _ answers.2, List.length_cons,
      List.drop_tail]
    rfl

end Keys

section Calls

variable {n n' : Node}

theorem PendingKeyed.congr (keyed : PendingKeyed n) (same : n'.db.store = n.db.store) :
    PendingKeyed n' := by
  unfold PendingKeyed
  rw [same]
  exact keyed

theorem PendingKeyed.save (keyed : PendingKeyed n) (txInfo : PendingTxInfo)
    (saved : n'.db.store = n.db.store.set (prefixedPendingTx txInfo.sequence) (.pendingTx txInfo)) :
    PendingKeyed n' := by
  rintro ⟨k, v⟩ mem
  obtain ⟨pk, found⟩ := Store.mem_prefixed.mp mem
  rw [saved, Store.get_set] at found
  split at found
  · rename_i key
    cases found
    exact ⟨txInfo, rfl, key.symm⟩
  · exact keyed (k, v) (Store.mem_prefixed.mpr ⟨pk, found⟩)

theorem PendingKeyed.delete (keyed : PendingKeyed n) (k : Bytes)
    (deleted : n'.db.store = n.db.store.delete k) : PendingKeyed n' := fun e mem => by
  rw [deleted, Store.prefixed_delete] at mem
  exact keyed e (List.mem_of_mem_filter mem)

variable (decodeTx : Bytes → Option (List Msg))

/-- One call on the node's store, returned or failed: a pending tx saved under its own
sequence, a pending tx or a message list deleted, or a restart. -/
inductive NodeCall : Node → Node → Prop
  | save (n : Node) (txInfo : PendingTxInfo) :
      NodeCall n (after (savePendingTx txInfo.sequence txInfo n))
  | deletePending (n : Node) (sequence : Nat) : NodeCall n (after (deletePendingTx sequence n))
  | deleteProcessed (n : Node) (timestamp : Nat) :
      NodeCall n (after (deleteProcessedMsgs timestamp n))
  | restart (n : Node) : NodeCall n (after (prepareBroadcaster decodeTx n))

/-- Every call keeps the pending txs under their own sequences; a restart that returns
leaves none. -/
theorem PendingKeyed.step (keyed : PendingKeyed n) (call : NodeCall decodeTx n n') :
    PendingKeyed n' := by
  cases call with
  | save txInfo =>
    rcases after_dbCall (fun s => ((), s.set (prefixedPendingTx txInfo.sequence)
      (.pendingTx txInfo))) n with same | saved
    · exact keyed.congr same
    · exact keyed.save txInfo saved
  | deletePending sequence =>
    rcases after_dbCall (fun s => ((), s.delete (prefixedPendingTx sequence))) n with same | deleted
    · exact keyed.congr same
    · exact keyed.delete _ deleted
  | deleteProcessed timestamp =>
    rcases after_dbCall (fun s => ((), s.delete (prefixedProcessedMsgs timestamp))) n with
      same | deleted
    · exact keyed.congr same
    · exact keyed.delete _ deleted
  | restart =>
    cases run : prepareBroadcaster decodeTx n with
    | ok _ n' =>
      intro e mem
      rw [after, prepareBroadcaster_clears_pending decodeTx keyed run] at mem
      cases mem
    | error e n' => exact keyed.congr (prepareBroadcaster_error_db decodeTx run)

/-- From a store whose pending txs are each under their own sequence (an empty store, say),
over any run of saves under the tx's own sequence, deletions and restarts, each returning or
failing under any fault schedule, the pending txs stay under their own sequences, and a
restart that returns leaves no pending tx in the store. -/
theorem restarts_leave_no_pending_tx (start : PendingKeyed n)
    (steps : Relation.ReflTransGen (NodeCall decodeTx) n n') :
    PendingKeyed n' ∧
      ∀ n'', prepareBroadcaster decodeTx n' = .ok () n'' → n''.db.store.prefixed pendingTxsKey = [] := by
  have keyed : PendingKeyed n' := by
    induction steps with
    | refl => exact start
    | tail _ call ih => exact ih.step decodeTx call
  exact ⟨keyed, fun _ run => prepareBroadcaster_clears_pending decodeTx keyed run⟩

/-- An empty store, then the tx of sequence 3 saved. -/
theorem restarts_leave_no_pending_tx_after_save :
    PendingKeyed ⟨⟨Store.empty.set (prefixedPendingTx 3) (.pendingTx ⟨3, [7], true⟩), []⟩, [],
        fun i => i⟩ ∧
      ∀ n'', prepareBroadcaster (fun b => some [b]) ⟨⟨Store.empty.set (prefixedPendingTx 3)
        (.pendingTx ⟨3, [7], true⟩), []⟩, [], fun i => i⟩ = .ok () n'' →
        n''.db.store.prefixed pendingTxsKey = [] :=
  restarts_leave_no_pending_tx (fun b => some [b]) (n := ⟨⟨Store.empty, []⟩, [], fun i => i⟩)
    (fun _ mem => by cases mem) (.single (.save _ ⟨3, [7], true⟩))

/-- A pending tx saved under a sequence `s` that no stored pending tx has, its own included
(`savePendingTx s tx` with `tx.Sequence ≠ s`): a restart that returns keeps it, for it
deletes each loaded tx under the key of the tx's own sequence. -/
theorem prepareBroadcaster_keeps_misfiled_tx {s : Nat} {t : PendingTxInfo} (small : s < 2 ^ 64)
    (stored : n.db.store.get (prefixedPendingTx s) = some (.pendingTx t))
    (elsewhere : ∀ e ∈ n.db.store.prefixed pendingTxsKey, ∀ t', e.2 = .pendingTx t' →
      t'.sequence ≠ s ∧ t'.sequence < 2 ^ 64)
    (run : prepareBroadcaster decodeTx n = .ok () n') :
    n'.db.store.get (prefixedPendingTx s) = some (.pendingTx t) := by
  obtain ⟨txs, loaded, db⟩ := prepareBroadcaster_ok decodeTx run
  rw [db, Store.get_batchSet_other _ _ fun kv mem => ?_]
  · exact stored
  rcases List.mem_append.mp mem with deleted | written
  · -- the deletion of a loaded tx, under its own sequence
    obtain ⟨t', mt', rfl⟩ := List.mem_map.mp deleted
    obtain ⟨e, me, decoded⟩ := mapM_ok_output loaded t' mt'
    obtain ⟨other, bound⟩ := elsewhere e me t' (decodePendingTx_eq_ok.mp decoded)
    exact fun same => other ((prefixedPendingTx_inj bound small).mp same)
  · obtain ⟨p, -, key⟩ := processedMsgsToRawKV_key written
    rw [key]
    exact (prefixedPendingTx_ne_processed s p.timestamp).symm

/-- The tx of sequence 4 saved under sequence 3. -/
theorem prepareBroadcaster_keeps_misfiled_tx_four_under_three :
    ∃ n', prepareBroadcaster (fun b => some [b]) ⟨⟨Store.empty.set (prefixedPendingTx 3)
        (.pendingTx ⟨4, [7], true⟩), []⟩, [], fun i => i⟩ = .ok () n' ∧
      n'.db.store.get (prefixedPendingTx 3) = some (.pendingTx ⟨4, [7], true⟩) := by
  obtain ⟨n', run⟩ : ∃ n', prepareBroadcaster (fun b => some [b]) ⟨⟨Store.empty.set
      (prefixedPendingTx 3) (.pendingTx ⟨4, [7], true⟩), []⟩, [], fun i => i⟩ = .ok () n' :=
    ⟨_, rfl⟩
  have stored : (Store.empty.set (prefixedPendingTx 3) (.pendingTx ⟨4, [7], true⟩)).get
      (prefixedPendingTx 3) = some (NodeRecord.pendingTx ⟨4, [7], true⟩) := by
    rw [Store.get_set, if_pos rfl]
  refine ⟨n', run, prepareBroadcaster_keeps_misfiled_tx _ (by decide) stored ?_ run⟩
  show ∀ e ∈ [(prefixedPendingTx 3, NodeRecord.pendingTx ⟨4, [7], true⟩)], _
  simp only [List.mem_singleton, forall_eq]
  rintro t' record
  cases record
  exact ⟨by decide, by decide⟩

/-- A restart over saved message lists `ps` on a store that holds no pending tx, then the
deletion of the record of every list it queued, as each is broadcast, with every store call of
the three steps answering: the processed messages are back as they were before the restart, so
the next restart queues every list again. -/
theorem broadcast_after_restart_restores_records {ps : List ProcessedMsgs}
    (answers : true ∉ n.db.faults.take (3 + ps.length + 3))
    (fresh : n.pendingProcessedMsgs = []) (noPending : n.db.store.prefixed pendingTxsKey = [])
    (stored : n.db.store.prefixed processedMsgsKey = ps.map processedEntry)
    (saved : ∀ p ∈ ps, p.save = true) (before : ∀ p ∈ ps, p.timestamp < n.clock 0)
    (increasing : StrictMono n.clock) (bounded : ∀ i < ps.length, n.clock i < 2 ^ 64) :
    ∃ n₁ n₂ n₃, prepareBroadcaster decodeTx n = .ok () n₁ ∧
      n₁.pendingProcessedMsgs.forM (fun q => deleteProcessedMsgs q.timestamp) n₁ = .ok () n₂ ∧
      n₂.db.store.prefixed processedMsgsKey = n.db.store.prefixed processedMsgsKey ∧
      prepareBroadcaster decodeTx { n₂ with pendingProcessedMsgs := [] } = .ok () n₃ ∧
      n₃.pendingProcessedMsgs.map (·.msgs) = ps.map (·.msgs) := by
  rw [List.take_add, List.take_add, List.mem_append, List.mem_append, not_or, not_or] at answers
  obtain ⟨⟨answers₁, answers₂⟩, answers₃⟩ := answers
  obtain ⟨n₁, first, queue, processed, pending, faults₁⟩ :=
    prepareBroadcaster_of_saved decodeTx answers₁ fresh noPending stored saved before increasing
      bounded
  -- the deletions use up one outcome per restamped list
  have deletes : n₁.db.faults.drop n₁.pendingProcessedMsgs.length = n.db.faults.drop (3 + ps.length) := by
    rw [faults₁, queue, restamp_length, List.drop_drop]
  rw [← restamp_length n.clock, ← queue, ← faults₁] at answers₂
  rw [← deletes] at answers₃
  -- the deletions hit exactly the restamped records: the old timestamps are below the clock
  have restored : (n₁.db.store.batchSet ((n₁.pendingProcessedMsgs.map fun q =>
      prefixedProcessedMsgs q.timestamp).map fun k => ⟨k, none⟩)).prefixed processedMsgsKey =
      ps.map processedEntry := by
    rw [Store.prefixed_batchSet_deletes, processed, queue, List.map_append, List.filter_append,
      List.filter_eq_self.mpr fun e mem => ?_, List.filter_eq_nil_iff.mpr fun e mem => ?_,
      List.append_nil]
    · -- every restamped record is deleted
      obtain ⟨q, mq, rfl⟩ := List.mem_map.mp mem
      rw [decide_eq_true_eq, not_not]
      exact List.mem_map_of_mem (fun q => prefixedProcessedMsgs q.timestamp) mq
    · -- no old record is
      obtain ⟨p, mp, rfl⟩ := List.mem_map.mp mem
      rw [decide_eq_true_eq]
      intro hit
      obtain ⟨q, mq, same⟩ := List.mem_map.mp hit
      obtain ⟨-, i, lt, at_i⟩ := mem_restamp mq
      have old : p.timestamp < n.clock i :=
        lt_of_lt_of_le (before p mp) (increasing.monotone (Nat.zero_le i))
      rw [at_i] at same
      have := (prefixedProcessedMsgs_inj (bounded i lt) (old.trans (bounded i lt))).mp same
      omega
  have noPending₂ : (n₁.db.store.batchSet ((n₁.pendingProcessedMsgs.map fun q =>
      prefixedProcessedMsgs q.timestamp).map fun k => ⟨k, none⟩)).prefixed pendingTxsKey = [] := by
    rw [Store.prefixed_batchSet_deletes, pending]
    rfl
  refine ⟨n₁, _, _, first, deleteProcessedMsgs_forM _ n₁ answers₂, restored.trans stored.symm,
    prepareBroadcaster_of_stored decodeTx (n := ⟨⟨_, _⟩, [], n₁.clock⟩) answers₃ noPending₂ restored,
    ?_⟩
  simp only [List.nil_append, restamp_msgs]

/-- One stored message list [[1]] saved at time 5, restarted at time 10, then broadcast. -/
theorem broadcast_after_restart_restores_records_one_list :
    ∃ n₁ n₂ n₃, prepareBroadcaster (fun _ => none) ⟨⟨Store.empty.set (prefixedProcessedMsgs 5)
        (.processedMsgs ⟨[[1]], 5, true⟩), []⟩, [], fun i => 10 + i⟩ = .ok () n₁ ∧
      n₁.pendingProcessedMsgs.forM (fun q => deleteProcessedMsgs q.timestamp) n₁ = .ok () n₂ ∧
      n₂.db.store.prefixed processedMsgsKey = (Store.empty.set (prefixedProcessedMsgs 5)
        (.processedMsgs ⟨[[1]], 5, true⟩)).prefixed processedMsgsKey ∧
      prepareBroadcaster (fun _ => none) { n₂ with pendingProcessedMsgs := [] } = .ok () n₃ ∧
      n₃.pendingProcessedMsgs.map (·.msgs) = [[[1]]] :=
  have stored : (Store.empty.set (prefixedProcessedMsgs 5) (.processedMsgs ⟨[[1]], 5, true⟩)).prefixed
      processedMsgsKey = [(⟨[[1]], 5, true⟩ : ProcessedMsgs)].map processedEntry := rfl
  broadcast_after_restart_restores_records (fun _ => none) (n := ⟨⟨Store.empty.set
    (prefixedProcessedMsgs 5) (.processedMsgs ⟨[[1]], 5, true⟩), []⟩, [], fun i => 10 + i⟩)
    (List.not_mem_nil _) rfl rfl stored
    (by decide) (by decide) (fun _ _ lt => Nat.add_lt_add_left lt 10)
    (fun i lt => show 10 + i < 2 ^ 64 by have : i < 1 := lt; omega)

end Calls

end OpinitBots.Node
