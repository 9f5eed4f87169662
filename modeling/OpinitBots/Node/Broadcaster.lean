import OpinitBots.Merkle.Types

/-! The restart of the node's broadcaster, `Node.prepareBroadcaster` from the point where
its account is set up: the pending txs the last run left are deleted and the messages of
those to be saved are queued again, the stored processed messages are queued again with
fresh timestamps, and every queued message to be saved is written under its new timestamp,
all in one batch. The node's store calls follow the same fault schedule as the engine's: the
two `PrefixedIterate`s and the `RawBatchSet` may each fail, and a batch is written whole or
not at all. The keys (`nodetypes`, whose file is not among the sources) follow the layout of
the engine's keys. The deletion of the old processed-message keys is commented out in the
source, so a restart leaves them in the store. -/
namespace OpinitBots

abbrev Msg := Bytes

/-- `nodetypes.PendingTxInfo`: the fields the restart reads. -/
structure PendingTxInfo where
  sequence : Nat
  tx : Bytes
  save : Bool
deriving DecidableEq

/-- `nodetypes.ProcessedMsgs`: messages to broadcast, the time they were queued in
nanoseconds, and whether they are kept in the store until broadcast. -/
structure ProcessedMsgs where
  msgs : List Msg
  timestamp : Nat
  save : Bool
deriving DecidableEq

/-- What the node's keys hold, as the records their encodings decode to. -/
inductive NodeRecord
  | pendingTx (t : PendingTxInfo)
  | processedMsgs (p : ProcessedMsgs)
  | other (b : Bytes)
deriving DecidableEq

def pendingTxsKey : Bytes := ascii "pending_txs/"
def processedMsgsKey : Bytes := ascii "processed_msgs/"

def prefixedPendingTx (sequence : Nat) : Bytes := pendingTxsKey ++ fromUint64Key sequence

def prefixedProcessedMsgs (timestamp : Nat) : Bytes := processedMsgsKey ++ fromUint64Key timestamp

/-- The node's errors: a stored record that does not decode, a pending tx whose bytes
`DecodeTx` rejects, or a store call that fails. -/
inductive NodeError
  | decode
  | decodeTx
  | store
deriving DecidableEq

/-- The node: its store (`n.db`, under the node's own prefix) with the outcome of each coming
call, its queue `pendingProcessedMsgs`, and the readings `time.Now` will return, in order. -/
structure Node where
  db : DB NodeRecord
  pendingProcessedMsgs : List ProcessedMsgs
  clock : Nat → Nat

abbrev NodeM := EStateM NodeError Node

namespace Node

/-- One call to the node's store, failing with an I/O error when the fault schedule says so. -/
def dbCall {α : Type} (op : Store NodeRecord → α × Store NodeRecord) : NodeM α := fun n =>
  if n.db.failing then .error .store { n with db := n.db.tick }
  else .ok (op n.db.store).1 { n with db := ⟨(op n.db.store).2, n.db.faults.tail⟩ }

def now : NodeM Nat := fun n => .ok (n.clock 0) { n with clock := fun i => n.clock (i + 1) }

def decodePendingTx : NodeRecord → Except NodeError PendingTxInfo
  | .pendingTx t => .ok t
  | _ => .error .decode

def decodeProcessedMsgs : NodeRecord → Except NodeError ProcessedMsgs
  | .processedMsgs p => .ok p
  | _ => .error .decode

/-- A `PrefixedIterate` over the records under `pfx` that decodes each, in key order, and
stops at the first that does not decode. -/
def loadRecords {α : Type} (pfx : Bytes) (decode : NodeRecord → Except NodeError α) :
    NodeM (List α) := do
  let entries ← dbCall fun s => (s.prefixed pfx, s)
  match entries.mapM fun e => decode e.2 with
  | .ok records => pure records
  | .error e => throw e

def loadPendingTxs : NodeM (List PendingTxInfo) := loadRecords pendingTxsKey decodePendingTx

def loadProcessedMsgs : NodeM (List ProcessedMsgs) :=
  loadRecords processedMsgsKey decodeProcessedMsgs

/-- `PendingTxsToRawKV`: one pair per tx under its sequence, holding the tx when it is to be
saved and not deleted, nil otherwise. -/
def pendingTxsToRawKV (txInfos : List PendingTxInfo) (delete : Bool) : List (RawKV NodeRecord) :=
  txInfos.map fun txInfo => ⟨prefixedPendingTx txInfo.sequence,
    if !delete && txInfo.save then some (.pendingTx txInfo) else none⟩

/-- `ProcessedMsgsToRawKV`: one pair per message list to be saved, under its timestamp,
nil when deleting; the others are skipped. -/
def processedMsgsToRawKV (processedMsgs : List ProcessedMsgs) (delete : Bool) :
    List (RawKV NodeRecord) :=
  processedMsgs.filterMap fun p =>
    if !p.save then none
    else some ⟨prefixedProcessedMsgs p.timestamp, if !delete then some (.processedMsgs p) else none⟩

def rawBatchSet (kvs : List (RawKV NodeRecord)) : NodeM Unit := dbCall fun s => ((), s.batchSet kvs)

def savePendingTx (sequence : Nat) (txInfo : PendingTxInfo) : NodeM Unit :=
  dbCall fun s => ((), s.set (prefixedPendingTx sequence) (.pendingTx txInfo))

def deletePendingTx (sequence : Nat) : NodeM Unit :=
  dbCall fun s => ((), s.delete (prefixedPendingTx sequence))

def deleteProcessedMsgs (timestamp : Nat) : NodeM Unit :=
  dbCall fun s => ((), s.delete (prefixedProcessedMsgs timestamp))

section Restart

variable (decodeTx : Bytes → Option (List Msg))

/-- The loop over the loaded pending txs: each is decoded, and the messages of one to be
saved are queued with a fresh timestamp. -/
def requeuePendingTxs : List PendingTxInfo → NodeM Unit
  | [] => pure ()
  | txInfo :: rest => do
    let msgs ← match decodeTx txInfo.tx with
      | some msgs => pure msgs
      | none => throw .decodeTx
    if txInfo.save then
      let timestamp ← now
      modify fun n => { n with
        pendingProcessedMsgs := n.pendingProcessedMsgs ++ [⟨msgs, timestamp, txInfo.save⟩] }
    requeuePendingTxs rest

/-- The loop giving each loaded message list a fresh timestamp, in order. -/
def refreshTimestamps : List ProcessedMsgs → NodeM (List ProcessedMsgs)
  | [] => pure []
  | p :: rest => do
    let timestamp ← now
    let rest ← refreshTimestamps rest
    pure ({ p with timestamp := timestamp } :: rest)

/-- `prepareBroadcaster` once the account is set up; the wait for the pending txs' timeout
only sleeps and is left out. -/
def prepareBroadcaster : NodeM Unit := do
  let loadedPendingTxs ← loadPendingTxs
  let pendingKVs ← (if loadedPendingTxs.length > 0 then do
      let pendingKVs := pendingTxsToRawKV loadedPendingTxs true
      requeuePendingTxs decodeTx loadedPendingTxs
      pure pendingKVs
    else pure [] : NodeM (List (RawKV NodeRecord)))
  let loadedProcessedMsgs ← loadProcessedMsgs
  let loadedProcessedMsgs ← refreshTimestamps loadedProcessedMsgs
  modify fun n => { n with pendingProcessedMsgs := n.pendingProcessedMsgs ++ loadedProcessedMsgs }
  let n ← get
  rawBatchSet (pendingKVs ++ processedMsgsToRawKV n.pendingProcessedMsgs false)

end Restart

section Lemmas

variable {α β : Type} {n n' : Node}

theorem bind_ok {x : NodeM α} {f : α → NodeM β} {a : α} (ok : x n = .ok a n') :
    (x >>= f) n = f a n' := by
  show EStateM.bind x f n = f a n'
  simp only [EStateM.bind, ok]

theorem bind_error {x : NodeM α} {f : α → NodeM β} {e : NodeError} (err : x n = .error e n') :
    (x >>= f) n = .error e n' := by
  show EStateM.bind x f n = .error e n'
  simp only [EStateM.bind, err]

theorem bind_eq_error {x : NodeM α} {f : α → NodeM β} {e : NodeError} (err : (x >>= f) n = .error e n') :
    x n = .error e n' ∨ ∃ a n₁, x n = .ok a n₁ ∧ f a n₁ = .error e n' := by
  cases first : x n with
  | ok a n₁ => exact .inr ⟨a, n₁, rfl, by rwa [bind_ok first] at err⟩
  | error e₁ n₁ => rw [bind_error first] at err; cases err; exact .inl rfl

theorem bind_eq_ok {x : NodeM α} {f : α → NodeM β} {b : β} (run : (x >>= f) n = .ok b n') :
    ∃ a n₁, x n = .ok a n₁ ∧ f a n₁ = .ok b n' := by
  cases first : x n with
  | ok a n₁ => exact ⟨a, n₁, rfl, by rwa [bind_ok first] at run⟩
  | error e n₁ => rw [bind_error first] at run; cases run

def after {α : Type} : EStateM.Result NodeError Node α → Node
  | .ok _ n => n
  | .error _ n => n

theorem dbCall_ok {op : Store NodeRecord → α × Store NodeRecord} (answers : n.db.failing = false) :
    dbCall op n = .ok (op n.db.store).1 { n with db := ⟨(op n.db.store).2, n.db.faults.tail⟩ } := by
  simp only [dbCall, answers, Bool.false_eq_true, if_false]

theorem dbCall_eq_ok {op : Store NodeRecord → α × Store NodeRecord} {a : α}
    (run : dbCall op n = .ok a n') : n.db.failing = false ∧ a = (op n.db.store).1 ∧
      n' = { n with db := ⟨(op n.db.store).2, n.db.faults.tail⟩ } := by
  unfold dbCall at run
  split at run
  · cases run
  · rename_i answers
    cases run
    exact ⟨by simpa using answers, rfl, rfl⟩

theorem dbCall_error {op : Store NodeRecord → α × Store NodeRecord} {e : NodeError}
    (err : dbCall op n = .error e n') : e = .store ∧ n' = { n with db := n.db.tick } := by
  unfold dbCall at err
  split at err
  · cases err
    exact ⟨rfl, rfl⟩
  · cases err

theorem after_dbCall (op : Store NodeRecord → α × Store NodeRecord) (n : Node) :
    (after (dbCall op n)).db.store = n.db.store ∨ (after (dbCall op n)).db.store = (op n.db.store).2 := by
  unfold dbCall
  split
  · exact .inl rfl
  · exact .inr rfl

theorem mapM_ok_mem {γ : Type} {f : γ → Except NodeError α} :
    ∀ {xs : List γ} {ys : List α}, xs.mapM f = .ok ys → ∀ x ∈ xs, ∃ y ∈ ys, f x = .ok y
  | [], _, _, _, mem => by cases mem
  | x :: xs, ys, ok, z, mem => by
    rw [List.mapM_cons] at ok
    cases fx : f x with
    | error e => rw [fx] at ok; cases ok
    | ok y =>
      cases rest : xs.mapM f with
      | error e => rw [fx, rest] at ok; cases ok
      | ok ys' =>
        rw [fx, rest] at ok
        cases ok
        rcases List.mem_cons.mp mem with rfl | mem
        · exact ⟨y, List.mem_cons_self _ _, fx⟩
        · obtain ⟨w, wm, fw⟩ := mapM_ok_mem rest z mem
          exact ⟨w, List.mem_cons_of_mem _ wm, fw⟩

theorem mapM_ok_output {γ : Type} {f : γ → Except NodeError α} :
    ∀ {xs : List γ} {ys : List α}, xs.mapM f = .ok ys → ∀ y ∈ ys, ∃ x ∈ xs, f x = .ok y
  | [], ys, ok, y, mem => by cases ok; cases mem
  | x :: xs, ys, ok, z, mem => by
    rw [List.mapM_cons] at ok
    cases fx : f x with
    | error e => rw [fx] at ok; cases ok
    | ok y =>
      cases rest : xs.mapM f with
      | error e => rw [fx, rest] at ok; cases ok
      | ok ys' =>
        rw [fx, rest] at ok
        cases ok
        rcases List.mem_cons.mp mem with rfl | mem
        · exact ⟨x, List.mem_cons_self _ _, fx⟩
        · obtain ⟨w, wm, fw⟩ := mapM_ok_output rest z mem
          exact ⟨w, List.mem_cons_of_mem _ wm, fw⟩

theorem loadRecords_ok {pfx : Bytes} {decode : NodeRecord → Except NodeError α} {xs : List α}
    (answers : n.db.failing = false)
    (ok : (n.db.store.prefixed pfx).mapM (fun e => decode e.2) = .ok xs) :
    loadRecords pfx decode n = .ok xs { n with db := n.db.tick } := by
  simp only [loadRecords]
  rw [bind_ok (dbCall_ok answers)]
  simp only [ok]
  rfl

theorem loadRecords_eq_ok {pfx : Bytes} {decode : NodeRecord → Except NodeError α} {xs : List α}
    (run : loadRecords pfx decode n = .ok xs n') :
    n.db.failing = false ∧ (n.db.store.prefixed pfx).mapM (fun e => decode e.2) = .ok xs ∧
      n' = { n with db := n.db.tick } := by
  simp only [loadRecords] at run
  obtain ⟨_, n₁, call, decoded⟩ := bind_eq_ok run
  obtain ⟨answers, rfl, rfl⟩ := dbCall_eq_ok call
  dsimp only at decoded
  cases loaded : (n.db.store.prefixed pfx).mapM fun e => decode e.2 <;>
    simp only [loaded] at decoded <;> cases decoded
  exact ⟨answers, rfl, rfl⟩

theorem loadRecords_eq_error {pfx : Bytes} {decode : NodeRecord → Except NodeError α} {e : NodeError}
    (err : loadRecords pfx decode n = .error e n') : n' = { n with db := n.db.tick } := by
  simp only [loadRecords] at err
  rcases bind_eq_error err with call | ⟨_, n₁, call, decoded⟩
  · exact (dbCall_error call).2
  obtain ⟨-, rfl, rfl⟩ := dbCall_eq_ok call
  dsimp only at decoded
  cases loaded : (n.db.store.prefixed pfx).mapM fun e => decode e.2 <;>
    simp only [loaded] at decoded <;> cases decoded
  rfl

def processedEntry (p : ProcessedMsgs) : Bytes × NodeRecord :=
  (prefixedProcessedMsgs p.timestamp, .processedMsgs p)

theorem decode_processedEntries :
    ∀ ps : List ProcessedMsgs, (ps.map processedEntry).mapM (fun e => decodeProcessedMsgs e.2) = .ok ps
  | [] => rfl
  | p :: ps => by
    rw [List.map_cons, List.mapM_cons, decode_processedEntries ps]
    rfl

/-- The message lists with the readings of `clock` as timestamps, in order. -/
def restamp (clock : Nat → Nat) : List ProcessedMsgs → List ProcessedMsgs
  | [] => []
  | p :: ps => { p with timestamp := clock 0 } :: restamp (fun i => clock (i + 1)) ps

theorem restamp_msgs (clock : Nat → Nat) :
    ∀ ps : List ProcessedMsgs, (restamp clock ps).map (·.msgs) = ps.map (·.msgs)
  | [] => rfl
  | p :: ps => by simp only [restamp, List.map_cons, restamp_msgs _ ps]

theorem restamp_length (clock : Nat → Nat) :
    ∀ ps : List ProcessedMsgs, (restamp clock ps).length = ps.length
  | [] => rfl
  | p :: ps => by simp only [restamp, List.length_cons, restamp_length _ ps]

theorem restamp_append (clock : Nat → Nat) : ∀ ps qs : List ProcessedMsgs,
    restamp clock (ps ++ qs) = restamp clock ps ++ restamp (fun i => clock (i + ps.length)) qs
  | [], _ => rfl
  | p :: ps, qs => by
    rw [List.cons_append, restamp, restamp, restamp_append _ ps qs]
    simp only [List.length_cons, Nat.add_assoc, List.cons_append]

/-- The lists the requeue loop queues, before their timestamps: the messages of each tx to
be saved, in order. -/
def requeued (decodeTx : Bytes → Option (List Msg)) (txs : List PendingTxInfo) :
    List ProcessedMsgs :=
  txs.filterMap fun t => if t.save then (decodeTx t.tx).map fun msgs => ⟨msgs, 0, t.save⟩ else none

theorem mem_restamp {clock : Nat → Nat} :
    ∀ {ps : List ProcessedMsgs} {q : ProcessedMsgs}, q ∈ restamp clock ps →
      (∃ p ∈ ps, q.save = p.save) ∧ ∃ i < ps.length, q.timestamp = clock i
  | [], _, mem => by cases mem
  | p :: ps, q, mem => by
    rcases List.mem_cons.mp mem with rfl | mem
    · exact ⟨⟨p, List.mem_cons_self p ps, rfl⟩, 0, by simp, rfl⟩
    · obtain ⟨⟨p', mem', save⟩, i, lt, at_i⟩ := mem_restamp mem
      exact ⟨⟨p', List.mem_cons_of_mem p mem', save⟩, i + 1, by simp; omega, at_i⟩

theorem refreshTimestamps_apply : ∀ (ps : List ProcessedMsgs) (n : Node),
    refreshTimestamps ps n = .ok (restamp n.clock ps) { n with clock := fun i => n.clock (i + ps.length) }
  | [], n => rfl
  | p :: ps, n => by
    simp only [refreshTimestamps]
    rw [bind_ok (rfl : now n = _), bind_ok (refreshTimestamps_apply ps _)]
    simp only [List.length_cons, Nat.add_assoc, Nat.add_comm 1 ps.length]
    rfl

theorem requeuePendingTxs_after (decodeTx : Bytes → Option (List Msg)) :
    ∀ (txs : List PendingTxInfo) (n : Node), (after (requeuePendingTxs decodeTx txs n)).db = n.db
  | [], _ => rfl
  | t :: txs, n => by
    simp only [requeuePendingTxs]
    cases decodeTx t.tx with
    | none => rfl
    | some msgs =>
      dsimp only
      rw [bind_ok (rfl : (pure msgs : NodeM (List Msg)) n = .ok msgs n)]
      cases t.save
      · exact requeuePendingTxs_after decodeTx txs n
      · rw [if_pos rfl, bind_ok (rfl : now n = _), bind_ok (rfl : (modify _ : NodeM Unit) _ = _)]
        exact requeuePendingTxs_after decodeTx txs _

theorem requeuePendingTxs_db (decodeTx : Bytes → Option (List Msg)) {txs : List PendingTxInfo}
    (run : requeuePendingTxs decodeTx txs n = .ok () n') : n'.db = n.db := by
  have kept := requeuePendingTxs_after decodeTx txs n
  rwa [run] at kept

theorem processedMsgsToRawKV_saved :
    ∀ ps : List ProcessedMsgs, (∀ p ∈ ps, p.save = true) →
      processedMsgsToRawKV ps false = (ps.map processedEntry).map fun e => ⟨e.1, some e.2⟩
  | [], _ => rfl
  | p :: ps, saved => by
    have rest := processedMsgsToRawKV_saved ps fun q mem => saved q (List.mem_cons_of_mem p mem)
    have head : p.save = true := saved p (List.mem_cons_self p ps)
    unfold processedMsgsToRawKV at rest ⊢
    simp only [List.filterMap_cons, head, Bool.not_true, Bool.false_eq_true, if_false, rest]
    rfl

theorem pending_not_processed (timestamp : Nat) :
    pendingTxsKey.isPrefixOf (prefixedProcessedMsgs timestamp) = false := rfl

theorem processed_prefix (timestamp : Nat) :
    processedMsgsKey.isPrefixOf (prefixedProcessedMsgs timestamp) = true :=
  List.isPrefixOf_iff_prefix.mpr (List.prefix_append _ _)

theorem compareBytes_prefixedProcessedMsgs {a b : Nat} (ha : a < 2 ^ 64) (hb : b < 2 ^ 64) :
    compareBytes (prefixedProcessedMsgs a) (prefixedProcessedMsgs b) = compare a b := by
  rw [prefixedProcessedMsgs, prefixedProcessedMsgs, compareBytes_append_left,
    compareBytes_fromUint64Key ha hb]

theorem processedMsgsToRawKV_key {ps : List ProcessedMsgs} {delete : Bool} {kv : RawKV NodeRecord}
    (mem : kv ∈ processedMsgsToRawKV ps delete) : ∃ p ∈ ps, kv.key = prefixedProcessedMsgs p.timestamp := by
  obtain ⟨p, mp, made⟩ := List.mem_filterMap.mp mem
  refine ⟨p, mp, ?_⟩
  split at made
  · cases made
  · cases made
    rfl

theorem pendingTxsToRawKV_delete (txs : List PendingTxInfo) :
    pendingTxsToRawKV txs true =
      (txs.map fun t => prefixedPendingTx t.sequence).map fun k => ⟨k, none⟩ := by
  simp [pendingTxsToRawKV]

theorem restamp_sorted : ∀ (ps : List ProcessedMsgs) {clock : Nat → Nat}, StrictMono clock →
    (∀ i < ps.length, clock i < 2 ^ 64) → KeySorted ((restamp clock ps).map processedEntry)
  | [], _, _, _ => List.Pairwise.nil
  | p :: ps, clock, increasing, bounded => by
    refine List.Pairwise.cons (fun e mem => ?_) (restamp_sorted ps (fun a b lt => increasing (by omega))
      fun i lt => bounded (i + 1) (by simp only [List.length_cons]; omega))
    obtain ⟨q, mq, rfl⟩ := List.mem_map.mp mem
    obtain ⟨-, i, lt, at_i⟩ := mem_restamp mq
    show compareBytes (prefixedProcessedMsgs (clock 0)) (prefixedProcessedMsgs q.timestamp) = .lt
    rw [at_i, compareBytes_prefixedProcessedMsgs (bounded 0 (by simp)) (bounded (i + 1)
      (by simp only [List.length_cons]; omega))]
    exact Nat.compare_eq_lt.mpr (increasing (by omega))

theorem decodePendingTx_eq_ok {r : NodeRecord} {t : PendingTxInfo} :
    decodePendingTx r = .ok t ↔ r = .pendingTx t := by
  cases r <;> simp [decodePendingTx, eq_comm]

theorem requeuePendingTxs_returns (decodeTx : Bytes → Option (List Msg)) :
    ∀ (txs : List PendingTxInfo) (n : Node),
      (∃ n', requeuePendingTxs decodeTx txs n = .ok () n') ↔ ∀ t ∈ txs, (decodeTx t.tx).isSome
  | [], n => ⟨(fun _ _ mem => by cases mem), fun _ => ⟨n, rfl⟩⟩
  | t :: txs, n => by
    simp only [requeuePendingTxs, List.forall_mem_cons]
    cases decodeTx t.tx with
    | none => exact ⟨(fun ⟨_, run⟩ => by cases run), fun ⟨rejected, _⟩ => by cases rejected⟩
    | some msgs =>
      dsimp only
      rw [bind_ok (rfl : (pure msgs : NodeM (List Msg)) n = .ok msgs n)]
      simp only [Option.isSome_some, true_and]
      cases t.save
      · exact requeuePendingTxs_returns decodeTx txs n
      · rw [if_pos rfl, bind_ok (rfl : now n = _), bind_ok (rfl : (modify _ : NodeM Unit) _ = _)]
        exact requeuePendingTxs_returns decodeTx txs _

theorem requeuePendingTxs_apply (decodeTx : Bytes → Option (List Msg)) :
    ∀ (txs : List PendingTxInfo) (n : Node), (∀ t ∈ txs, (decodeTx t.tx).isSome) →
      requeuePendingTxs decodeTx txs n = .ok () { n with
        pendingProcessedMsgs := n.pendingProcessedMsgs ++ restamp n.clock (requeued decodeTx txs),
        clock := fun i => n.clock (i + (requeued decodeTx txs).length) }
  | [], n, _ => by simp only [requeuePendingTxs, requeued, List.filterMap_nil, restamp, List.append_nil,
      List.length_nil, Nat.add_zero]; rfl
  | t :: txs, n, accepted => by
    obtain ⟨msgs, decoded⟩ := Option.isSome_iff_exists.mp (accepted t (List.mem_cons_self t txs))
    have rest := requeuePendingTxs_apply decodeTx txs
    have others : ∀ t' ∈ txs, (decodeTx t'.tx).isSome := fun t' mem =>
      accepted t' (List.mem_cons_of_mem t mem)
    have head : requeued decodeTx (t :: txs) =
        (if t.save then [⟨msgs, 0, t.save⟩] else []) ++ requeued decodeTx txs := by
      cases save : t.save <;> simp [requeued, List.filterMap_cons, decoded, save]
    simp only [requeuePendingTxs, decoded, head]
    rw [bind_ok (rfl : (pure msgs : NodeM (List Msg)) n = .ok msgs n)]
    cases t.save
    · exact (rest n others).trans (by simp only [Bool.false_eq_true, if_false, List.nil_append])
    · rw [if_pos rfl, bind_ok (rfl : now n = _), bind_ok (rfl : (modify _ : NodeM Unit) _ = _),
        rest _ others]
      simp only [if_true, List.singleton_append, restamp, List.append_assoc, List.append_eq,
        List.nil_append, List.length_cons, Nat.add_assoc, Nat.add_comm 1]

end Lemmas

section Restart

variable (decodeTx : Bytes → Option (List Msg)) {n n' : Node}

theorem pendingStage_ok {txs : List PendingTxInfo} {kvs : List (RawKV NodeRecord)}
    (first : (if txs.length > 0 then do
        requeuePendingTxs decodeTx txs
        pure (pendingTxsToRawKV txs true) else pure [] : NodeM (List (RawKV NodeRecord))) n =
      .ok kvs n') : kvs = pendingTxsToRawKV txs true ∧ n'.db = n.db := by
  split at first
  · obtain ⟨_, n₂, requeue, first⟩ := bind_eq_ok first
    cases first
    exact ⟨rfl, requeuePendingTxs_db decodeTx requeue⟩
  · obtain rfl : txs = [] := List.eq_nil_of_length_eq_zero (by omega)
    cases first
    exact ⟨rfl, rfl⟩

theorem pendingStage_error {txs : List PendingTxInfo} {e : NodeError}
    (first : (if txs.length > 0 then do
        requeuePendingTxs decodeTx txs
        pure (pendingTxsToRawKV txs true) else pure [] : NodeM (List (RawKV NodeRecord))) n =
      .error e n') : n'.db = n.db := by
  split at first
  · rcases bind_eq_error first with requeue | ⟨_, n₂, -, first⟩
    · have kept := requeuePendingTxs_after decodeTx txs n
      rwa [requeue] at kept
    · cases first
  · cases first

/-- A failed restart wrote nothing: its one write is the batch, written whole or not at all. -/
theorem prepareBroadcaster_error_db {e : NodeError}
    (run : prepareBroadcaster decodeTx n = .error e n') : n'.db.store = n.db.store := by
  simp only [prepareBroadcaster] at run
  rcases bind_eq_error run with loadPending | ⟨txs, n₀, loadPending, pending⟩
  · rw [loadRecords_eq_error loadPending]
    rfl
  obtain ⟨-, -, rfl⟩ := loadRecords_eq_ok loadPending
  rcases bind_eq_error pending with first | ⟨kvs, n₁, first, processed⟩
  · rw [pendingStage_error decodeTx first]
    rfl
  obtain ⟨-, same⟩ := pendingStage_ok decodeTx first
  rcases bind_eq_error processed with loadProcessed | ⟨ps, n₂, loadProcessed, batch⟩
  · rw [loadRecords_eq_error loadProcessed]
    show n₁.db.store = _
    rw [same]
    rfl
  obtain ⟨-, -, rfl⟩ := loadRecords_eq_ok loadProcessed
  rw [bind_ok (refreshTimestamps_apply ps _), bind_ok (rfl : (modify _ : NodeM Unit) _ = _),
    bind_ok (rfl : (get : NodeM Node) _ = _)] at batch
  rw [(dbCall_error batch).2]
  show n₁.db.store = _
  rw [same]
  rfl

theorem pendingStage_returns {txs : List PendingTxInfo} :
    (∃ kvs n', (if txs.length > 0 then do
        requeuePendingTxs decodeTx txs
        pure (pendingTxsToRawKV txs true) else pure [] : NodeM (List (RawKV NodeRecord))) n =
      .ok kvs n') ↔ ∀ t ∈ txs, (decodeTx t.tx).isSome := by
  split
  · rw [← requeuePendingTxs_returns decodeTx txs n]
    constructor
    · rintro ⟨_, _, run⟩
      obtain ⟨_, n₁, requeue, -⟩ := bind_eq_ok run
      exact ⟨n₁, requeue⟩
    · rintro ⟨n₁, requeue⟩
      exact ⟨_, _, bind_ok requeue⟩
  · obtain rfl : txs = [] := List.eq_nil_of_length_eq_zero (by omega)
    exact ⟨(fun _ _ mem => by cases mem), fun _ => ⟨_, _, rfl⟩⟩

theorem pendingStage_apply {txs : List PendingTxInfo} (accepted : ∀ t ∈ txs, (decodeTx t.tx).isSome) :
    (if txs.length > 0 then do
        requeuePendingTxs decodeTx txs
        pure (pendingTxsToRawKV txs true) else pure [] : NodeM (List (RawKV NodeRecord))) n =
      .ok (pendingTxsToRawKV txs true) { n with
        pendingProcessedMsgs := n.pendingProcessedMsgs ++ restamp n.clock (requeued decodeTx txs),
        clock := fun i => n.clock (i + (requeued decodeTx txs).length) } := by
  split
  · exact bind_ok (requeuePendingTxs_apply decodeTx txs n accepted)
  · obtain rfl : txs = [] := List.eq_nil_of_length_eq_zero (by omega)
    simp only [requeued, List.filterMap_nil, restamp, List.append_nil, List.length_nil,
      Nat.add_zero]
    rfl

/-- A restart that returned made its three store calls, each answering; it decoded every
record it loaded, and `DecodeTx` accepted every loaded tx. -/
theorem prepareBroadcaster_accepts (run : prepareBroadcaster decodeTx n = .ok () n') :
    ∃ txs ps, (n.db.store.prefixed pendingTxsKey).mapM (fun e => decodePendingTx e.2) = .ok txs ∧
      (∀ t ∈ txs, (decodeTx t.tx).isSome) ∧
      (n.db.store.prefixed processedMsgsKey).mapM (fun e => decodeProcessedMsgs e.2) = .ok ps ∧
      true ∉ n.db.faults.take 3 := by
  simp only [prepareBroadcaster] at run
  obtain ⟨txs, n₀, loadPending, pending⟩ := bind_eq_ok run
  obtain ⟨answers₀, loaded, rfl⟩ := loadRecords_eq_ok loadPending
  obtain ⟨kvs, n₁, first, processed⟩ := bind_eq_ok pending
  obtain ⟨-, same⟩ := pendingStage_ok decodeTx first
  obtain ⟨ps, n₂, loadProcessed, batch⟩ := bind_eq_ok processed
  obtain ⟨answers₁, decoded, rfl⟩ := loadRecords_eq_ok loadProcessed
  rw [bind_ok (refreshTimestamps_apply ps _), bind_ok (rfl : (modify _ : NodeM Unit) _ = _),
    bind_ok (rfl : (get : NodeM Node) _ = _)] at batch
  obtain ⟨answers₂, -, -⟩ := dbCall_eq_ok batch
  rw [same] at decoded answers₁ answers₂
  refine ⟨txs, ps, loaded, (pendingStage_returns decodeTx).mp ⟨_, _, first⟩, decoded, ?_⟩
  rw [DB.answers_succ, DB.answers_succ, DB.answers_succ]
  exact ⟨answers₀, answers₁, answers₂, List.not_mem_nil _⟩

/-- A restart whose three store calls answer, on a store whose records decode, to txs
`DecodeTx` accepts and to lists `ps`: it queues the lists of the txs to be saved and then
`ps`, each with the next reading of the clock, and writes the deletion of every loaded tx and
every list of the queue to be saved. -/
theorem prepareBroadcaster_apply {txs : List PendingTxInfo} {ps : List ProcessedMsgs}
    (answers : true ∉ n.db.faults.take 3)
    (loaded : (n.db.store.prefixed pendingTxsKey).mapM (fun e => decodePendingTx e.2) = .ok txs)
    (accepted : ∀ t ∈ txs, (decodeTx t.tx).isSome)
    (decoded : (n.db.store.prefixed processedMsgsKey).mapM (fun e => decodeProcessedMsgs e.2) = .ok ps) :
    prepareBroadcaster decodeTx n = .ok () ⟨⟨n.db.store.batchSet (pendingTxsToRawKV txs true ++
        processedMsgsToRawKV (n.pendingProcessedMsgs ++
          restamp n.clock (requeued decodeTx txs ++ ps)) false), n.db.faults.drop 3⟩,
      n.pendingProcessedMsgs ++ restamp n.clock (requeued decodeTx txs ++ ps),
      fun i => n.clock (i + (requeued decodeTx txs ++ ps).length)⟩ := by
  rw [DB.answers_succ, DB.answers_succ, DB.answers_succ] at answers
  obtain ⟨answers₀, answers₁, answers₂, -⟩ := answers
  have loadPending : loadPendingTxs n = .ok txs { n with db := n.db.tick } :=
    loadRecords_ok answers₀ loaded
  have loadProcessed : ∀ queue clock, loadProcessedMsgs ⟨n.db.tick, queue, clock⟩ =
      .ok ps ⟨n.db.tick.tick, queue, clock⟩ := fun _ _ => loadRecords_ok answers₁ decoded
  have rest : n.db.faults.drop 3 = n.db.tick.tick.tick.faults := by
    show _ = (n.db.faults.drop 0).tail.tail.tail
    rw [List.tail_drop, List.tail_drop, List.tail_drop]
  simp only [prepareBroadcaster]
  rw [bind_ok loadPending, bind_ok (pendingStage_apply decodeTx accepted),
    bind_ok (loadProcessed _ _), bind_ok (refreshTimestamps_apply ps _),
    bind_ok (rfl : (modify _ : NodeM Unit) _ = _), bind_ok (rfl : (get : NodeM Node) _ = _),
    rest]
  simp only [restamp_append, List.append_assoc, List.length_append, Nat.add_assoc,
    Nat.add_comm ps.length]
  exact dbCall_ok answers₂

theorem prepareBroadcaster_ok (run : prepareBroadcaster decodeTx n = .ok () n') :
    ∃ txs, (n.db.store.prefixed pendingTxsKey).mapM (fun e => decodePendingTx e.2) = .ok txs ∧
      n'.db.store = n.db.store.batchSet
        (pendingTxsToRawKV txs true ++ processedMsgsToRawKV n'.pendingProcessedMsgs false) := by
  obtain ⟨txs, ps, loaded, accepted, decoded, answers⟩ := prepareBroadcaster_accepts decodeTx run
  rw [prepareBroadcaster_apply decodeTx answers loaded accepted decoded] at run
  cases run
  exact ⟨txs, loaded, rfl⟩

/-- What a restart that returned did. It loaded the pending txs `txs` and the message lists
`ps` in key order, and queued, after the lists already queued, the messages of each tx to be
saved and then each list of `ps`, each with the next reading of the clock; a tx not to be
saved is dropped. Its batch deletes every loaded tx and writes every list of the queue that
is to be saved, under its timestamp, and it used up three outcomes of the fault schedule. -/
theorem prepareBroadcaster_spec (run : prepareBroadcaster decodeTx n = .ok () n') :
    ∃ txs ps, (n.db.store.prefixed pendingTxsKey).mapM (fun e => decodePendingTx e.2) = .ok txs ∧
      (n.db.store.prefixed processedMsgsKey).mapM (fun e => decodeProcessedMsgs e.2) = .ok ps ∧
      n'.pendingProcessedMsgs = n.pendingProcessedMsgs ++ restamp n.clock (requeued decodeTx txs ++ ps) ∧
      n'.db = ⟨n.db.store.batchSet
        (pendingTxsToRawKV txs true ++ processedMsgsToRawKV n'.pendingProcessedMsgs false),
        n.db.faults.drop 3⟩ := by
  obtain ⟨txs, ps, loaded, accepted, decoded, answers⟩ := prepareBroadcaster_accepts decodeTx run
  rw [prepareBroadcaster_apply decodeTx answers loaded accepted decoded] at run
  cases run
  exact ⟨txs, ps, loaded, decoded, rfl, rfl⟩

/-- One pending tx of sequence 3 to be saved and one list saved at time 5, restarted at
time 10. -/
theorem prepareBroadcaster_spec_one_each :
    ∃ n', prepareBroadcaster (fun b => some [b]) ⟨⟨(Store.empty.set (prefixedPendingTx 3)
        (.pendingTx ⟨3, [7], true⟩)).set (prefixedProcessedMsgs 5) (.processedMsgs ⟨[[1]], 5, true⟩),
        []⟩, [], fun i => 10 + i⟩ = .ok () n' ∧
      ∃ txs ps, (((Store.empty.set (prefixedPendingTx 3) (.pendingTx ⟨3, [7], true⟩)).set
          (prefixedProcessedMsgs 5) (.processedMsgs ⟨[[1]], 5, true⟩)).prefixed pendingTxsKey).mapM
          (fun e => decodePendingTx e.2) = .ok txs ∧
        (((Store.empty.set (prefixedPendingTx 3) (.pendingTx ⟨3, [7], true⟩)).set
          (prefixedProcessedMsgs 5) (.processedMsgs ⟨[[1]], 5, true⟩)).prefixed processedMsgsKey).mapM
          (fun e => decodeProcessedMsgs e.2) = .ok ps ∧
        n'.pendingProcessedMsgs = restamp (fun i => 10 + i) (requeued (fun b => some [b]) txs ++ ps) ∧
        n'.db = ⟨((Store.empty.set (prefixedPendingTx 3) (.pendingTx ⟨3, [7], true⟩)).set
          (prefixedProcessedMsgs 5) (.processedMsgs ⟨[[1]], 5, true⟩)).batchSet
          (pendingTxsToRawKV txs true ++ processedMsgsToRawKV n'.pendingProcessedMsgs false), []⟩ := by
  obtain ⟨n', run⟩ : ∃ n', prepareBroadcaster (fun b => some [b]) ⟨⟨(Store.empty.set
      (prefixedPendingTx 3) (.pendingTx ⟨3, [7], true⟩)).set (prefixedProcessedMsgs 5)
      (.processedMsgs ⟨[[1]], 5, true⟩), []⟩, [], fun i => 10 + i⟩ = .ok () n' := ⟨_, rfl⟩
  exact ⟨n', run, prepareBroadcaster_spec (fun b => some [b]) run⟩

theorem prepareBroadcaster_clears_pending
    (keyed : ∀ e ∈ n.db.store.prefixed pendingTxsKey,
      ∃ t, e.2 = .pendingTx t ∧ e.1 = prefixedPendingTx t.sequence)
    (run : prepareBroadcaster decodeTx n = .ok () n') : n'.db.store.prefixed pendingTxsKey = [] := by
  obtain ⟨txs, loaded, db⟩ := prepareBroadcaster_ok decodeTx run
  rw [db, Store.batchSet_append, Store.prefixed_batchSet_other _ _ _ fun kv mem => by
      obtain ⟨p, -, key⟩ := processedMsgsToRawKV_key mem
      rw [key, pending_not_processed],
    pendingTxsToRawKV_delete, Store.prefixed_batchSet_deletes]
  refine List.filter_eq_nil_iff.mpr fun e mem => ?_
  obtain ⟨t, record, key⟩ := keyed e mem
  obtain ⟨t', mt', decoded⟩ := mapM_ok_mem loaded e mem
  rw [record] at decoded
  cases decoded
  simpa [key] using ⟨t, mt', rfl⟩

theorem prepareBroadcaster_of_stored {ps : List ProcessedMsgs}
    (answers : true ∉ n.db.faults.take 3) (noPending : n.db.store.prefixed pendingTxsKey = [])
    (stored : n.db.store.prefixed processedMsgsKey = ps.map processedEntry) :
    prepareBroadcaster decodeTx n = .ok () ⟨⟨n.db.store.batchSet (processedMsgsToRawKV
        (n.pendingProcessedMsgs ++ restamp n.clock ps) false), n.db.faults.drop 3⟩,
      n.pendingProcessedMsgs ++ restamp n.clock ps, fun i => n.clock (i + ps.length)⟩ := by
  have loaded : (n.db.store.prefixed pendingTxsKey).mapM (fun e => decodePendingTx e.2) =
      .ok [] := by rw [noPending]; rfl
  exact prepareBroadcaster_apply decodeTx answers loaded (fun _ mem => by cases mem)
    (by rw [stored]; exact decode_processedEntries ps)

theorem prepareBroadcaster_of_saved {ps : List ProcessedMsgs} (answers : true ∉ n.db.faults.take 3)
    (fresh : n.pendingProcessedMsgs = []) (noPending : n.db.store.prefixed pendingTxsKey = [])
    (stored : n.db.store.prefixed processedMsgsKey = ps.map processedEntry)
    (saved : ∀ p ∈ ps, p.save = true) (before : ∀ p ∈ ps, p.timestamp < n.clock 0)
    (increasing : StrictMono n.clock) (bounded : ∀ i < ps.length, n.clock i < 2 ^ 64) :
    ∃ n₁, prepareBroadcaster decodeTx n = .ok () n₁ ∧ n₁.pendingProcessedMsgs = restamp n.clock ps ∧
      n₁.db.store.prefixed processedMsgsKey = (ps ++ restamp n.clock ps).map processedEntry ∧
      n₁.db.store.prefixed pendingTxsKey = [] ∧ n₁.db.faults = n.db.faults.drop 3 := by
  have first := prepareBroadcaster_of_stored decodeTx answers noPending stored
  have savedQueue : ∀ q ∈ restamp n.clock ps, q.save = true := fun q mem =>
    let ⟨⟨p, mp, same⟩, _⟩ := mem_restamp mem
    same.trans (saved p mp)
  rw [fresh, List.nil_append, processedMsgsToRawKV_saved _ savedQueue] at first
  -- the old entries come first, the restamped ones after them in key order
  have sorted : KeySorted (n.db.store.prefixed processedMsgsKey ++ (restamp n.clock ps).map processedEntry) :=
    List.pairwise_append.mpr ⟨n.db.store.prefixed_sorted _, restamp_sorted ps increasing bounded,
      fun a ma b mb => by
        rw [stored] at ma
        obtain ⟨p, mp, rfl⟩ := List.mem_map.mp ma
        obtain ⟨q, mq, rfl⟩ := List.mem_map.mp mb
        obtain ⟨-, i, lt, at_i⟩ := mem_restamp mq
        have old : p.timestamp < n.clock i :=
          lt_of_lt_of_le (before p mp) (increasing.monotone (Nat.zero_le i))
        show compareBytes (prefixedProcessedMsgs p.timestamp) (prefixedProcessedMsgs q.timestamp) = .lt
        rw [at_i, compareBytes_prefixedProcessedMsgs (old.trans (bounded i lt)) (bounded i lt)]
        exact Nat.compare_eq_lt.mpr old⟩
  refine ⟨_, first, rfl, ?_, ?_, rfl⟩
  · rw [Store.prefixed_batchSet_append _ _ _ sorted fun kv mem => by
        obtain ⟨q, -, rfl⟩ := List.mem_map.mp mem
        exact processed_prefix _,
      stored, List.map_append]
  · rw [Store.prefixed_batchSet_other _ _ _ fun kv mem => by
        obtain ⟨e, me, rfl⟩ := List.mem_map.mp mem
        obtain ⟨q, -, rfl⟩ := List.mem_map.mp me
        exact pending_not_processed _,
      noPending]

/-- Two restarts with no broadcast in between, on a store whose six calls answer, holding
saved message lists `ps` under their timestamps and no pending tx, with a clock that increases
past every stored timestamp: the first queues each list once but leaves it in the store under
its old and its new timestamp, so the second queues each list twice. -/
theorem restart_twice_queues_twice {ps : List ProcessedMsgs} (answers : true ∉ n.db.faults.take 6)
    (fresh : n.pendingProcessedMsgs = []) (noPending : n.db.store.prefixed pendingTxsKey = [])
    (stored : n.db.store.prefixed processedMsgsKey = ps.map processedEntry)
    (saved : ∀ p ∈ ps, p.save = true) (before : ∀ p ∈ ps, p.timestamp < n.clock 0)
    (increasing : StrictMono n.clock) (bounded : ∀ i < ps.length, n.clock i < 2 ^ 64) :
    ∃ n₁ n₂, prepareBroadcaster decodeTx n = .ok () n₁ ∧
      n₁.pendingProcessedMsgs.map (·.msgs) = ps.map (·.msgs) ∧
      (n₁.db.store.prefixed processedMsgsKey).length = 2 * ps.length ∧
      prepareBroadcaster decodeTx { n₁ with pendingProcessedMsgs := [] } = .ok () n₂ ∧
      n₂.pendingProcessedMsgs.map (·.msgs) = ps.map (·.msgs) ++ ps.map (·.msgs) := by
  rw [show 6 = 3 + 3 from rfl, List.take_add, List.mem_append, not_or] at answers
  obtain ⟨n₁, first, queue, processed, pending, faults₁⟩ :=
    prepareBroadcaster_of_saved decodeTx answers.1 fresh noPending stored saved before increasing
      bounded
  rw [← faults₁] at answers
  refine ⟨n₁, _, first, by rw [queue, restamp_msgs], ?_,
    prepareBroadcaster_of_stored decodeTx (n := { n₁ with pendingProcessedMsgs := [] }) answers.2
      pending processed, ?_⟩
  · rw [processed, List.length_map, List.length_append, restamp_length]
    omega
  · simp only [List.nil_append, restamp_msgs, List.map_append]

/-- The input of the code bug below: one list saved at time 5, restarted at time 10. -/
theorem restart_twice_queues_twice_one_list :
    ∃ n₁ n₂, prepareBroadcaster (fun _ => none) ⟨⟨Store.empty.set (prefixedProcessedMsgs 5)
        (.processedMsgs ⟨[[1]], 5, true⟩), []⟩, [], fun i => 10 + i⟩ = .ok () n₁ ∧
      n₁.pendingProcessedMsgs.map (·.msgs) = [[[1]]] ∧
      (n₁.db.store.prefixed processedMsgsKey).length = 2 ∧
      prepareBroadcaster (fun _ => none) { n₁ with pendingProcessedMsgs := [] } = .ok () n₂ ∧
      n₂.pendingProcessedMsgs.map (·.msgs) = [[[1]], [[1]]] :=
  have stored : (Store.empty.set (prefixedProcessedMsgs 5) (.processedMsgs ⟨[[1]], 5, true⟩)).prefixed
      processedMsgsKey = [(⟨[[1]], 5, true⟩ : ProcessedMsgs)].map processedEntry := rfl
  restart_twice_queues_twice (fun _ => none) (n := ⟨⟨Store.empty.set (prefixedProcessedMsgs 5)
    (.processedMsgs ⟨[[1]], 5, true⟩), []⟩, [], fun i => 10 + i⟩) (List.not_mem_nil _) rfl rfl
    stored (by decide) (by decide) (fun _ _ lt => Nat.add_lt_add_left lt 10)
    (fun i lt => show 10 + i < 2 ^ 64 by have : i < 1 := lt; omega)

end Restart

/-- One stored message list [[1]] saved at time 5 and no pending tx, restarted at time 10:
the store then holds the list under both 5 and 10 while the queue holds it once, and a
second restart at time 20 queues it twice. -/
theorem prepareBroadcaster_keeps_old_processed_msgs (decodeTx : Bytes → Option (List Msg)) :
    ∃ n₁ n₂, prepareBroadcaster decodeTx ⟨⟨Store.empty.set (prefixedProcessedMsgs 5)
        (.processedMsgs ⟨[[1]], 5, true⟩), []⟩, [], fun i => 10 + i⟩ = .ok () n₁ ∧
      n₁.pendingProcessedMsgs = [⟨[[1]], 10, true⟩] ∧
      n₁.db.store.prefixed processedMsgsKey =
        [(prefixedProcessedMsgs 5, .processedMsgs ⟨[[1]], 5, true⟩),
          (prefixedProcessedMsgs 10, .processedMsgs ⟨[[1]], 10, true⟩)] ∧
      prepareBroadcaster decodeTx ⟨n₁.db, [], fun i => 20 + i⟩ = .ok () n₂ ∧
      n₂.pendingProcessedMsgs = [⟨[[1]], 20, true⟩, ⟨[[1]], 21, true⟩] :=
  ⟨_, _, rfl, rfl, rfl, rfl, rfl⟩

end Node

end OpinitBots
