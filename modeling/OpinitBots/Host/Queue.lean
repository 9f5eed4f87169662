import Mathlib.Data.List.Basic

/-! The queues of `BaseHost`: the messages waiting per sender, a Go map from sender to
slice, and the processed message batches waiting to be saved or broadcast. A run of the
host's queue calls leaves under each sender exactly the messages appended for it since the
last `EmptyMsgQueue`, under a key that stays once a message was appended for the sender,
since emptying cuts each slice to length 0 but keeps its key; and the batches appended since
the last `EmptyProcessedMsgs`. -/
namespace OpinitBots.Host

/-- `BaseHost.msgQueue`, a missing key reading `none`, and `BaseHost.processedMsgs`. -/
@[ext]
structure Queues (Msg Processed : Type) where
  msgQueue : String → Option (List Msg)
  processedMsgs : List Processed

section Calls

variable {Msg Processed : Type}

def initialQueues : Queues Msg Processed := ⟨fun _ => none, []⟩

def getMsgQueue (q : Queues Msg Processed) : String → Option (List Msg) := q.msgQueue

/-- `AppendMsgQueue`: a missing key reads as the nil slice. -/
def appendMsgQueue (msg : Msg) (sender : String) (q : Queues Msg Processed) :
    Queues Msg Processed :=
  { q with msgQueue := Function.update q.msgQueue sender (some ((q.msgQueue sender).getD [] ++ [msg])) }

/-- `EmptyMsgQueue`: each sender's slice cut to length 0, its key kept. -/
def emptyMsgQueue (q : Queues Msg Processed) : Queues Msg Processed :=
  { q with msgQueue := fun sender => (q.msgQueue sender).map fun _ => [] }

def getProcessedMsgs (q : Queues Msg Processed) : List Processed := q.processedMsgs

def appendProcessedMsgs (msgs : Processed) (q : Queues Msg Processed) : Queues Msg Processed :=
  { q with processedMsgs := q.processedMsgs ++ [msgs] }

def emptyProcessedMsgs (q : Queues Msg Processed) : Queues Msg Processed :=
  { q with processedMsgs := [] }

/-- The host's queue calls. -/
inductive QueueCall (Msg Processed : Type)
  | appendMsgQueue (msg : Msg) (sender : String)
  | emptyMsgQueue
  | appendProcessedMsgs (msgs : Processed)
  | emptyProcessedMsgs

def QueueCall.apply : QueueCall Msg Processed → Queues Msg Processed → Queues Msg Processed
  | .appendMsgQueue msg sender => OpinitBots.Host.appendMsgQueue msg sender
  | .emptyMsgQueue => OpinitBots.Host.emptyMsgQueue
  | .appendProcessedMsgs msgs => OpinitBots.Host.appendProcessedMsgs msgs
  | .emptyProcessedMsgs => OpinitBots.Host.emptyProcessedMsgs

def runCalls (calls : List (QueueCall Msg Processed)) (q : Queues Msg Processed) :
    Queues Msg Processed :=
  calls.foldl (fun q c => c.apply q) q

theorem runCalls_append_singleton (calls : List (QueueCall Msg Processed))
    (c : QueueCall Msg Processed) (q : Queues Msg Processed) :
    runCalls (calls ++ [c]) q = c.apply (runCalls calls q) := by
  simp only [runCalls, List.foldl_append, List.foldl_cons, List.foldl_nil]

end Calls

section Spec

variable {Msg Processed α : Type}

@[simp]
def QueueCall.msgFor (sender : String) : QueueCall Msg Processed → Option Msg
  | .appendMsgQueue msg s => if s = sender then some msg else none
  | _ => none

@[simp]
def QueueCall.batch : QueueCall Msg Processed → Option Processed
  | .appendProcessedMsgs msgs => some msgs
  | _ => none

@[simp]
def QueueCall.emptiesMsgs : QueueCall Msg Processed → Bool
  | .emptyMsgQueue => true
  | _ => false

@[simp]
def QueueCall.emptiesBatches : QueueCall Msg Processed → Bool
  | .emptyProcessedMsgs => true
  | _ => false

/-- The calls after the last one that `stops`, all of them when none does. -/
def sinceLast (stops : α → Bool) (calls : List α) : List α :=
  (calls.reverse.takeWhile fun c => !stops c).reverse

/-- What the queues are for: under each sender that was ever sent a message, the messages
appended for it since the last `EmptyMsgQueue`, and no key for any other sender; and the
batches appended since the last `EmptyProcessedMsgs`. -/
def expected (calls : List (QueueCall Msg Processed)) : Queues Msg Processed where
  msgQueue sender :=
    if calls.any fun c => (c.msgFor sender).isSome then
      some ((sinceLast QueueCall.emptiesMsgs calls).filterMap (QueueCall.msgFor sender))
    else none
  processedMsgs := (sinceLast QueueCall.emptiesBatches calls).filterMap QueueCall.batch

@[simp]
theorem sinceLast_append_singleton (stops : α → Bool) (calls : List α) (c : α) :
    sinceLast stops (calls ++ [c]) = if stops c then [] else sinceLast stops calls ++ [c] := by
  unfold sinceLast
  rw [List.reverse_append, List.reverse_cons, List.reverse_nil, List.nil_append,
    List.singleton_append, List.takeWhile_cons]
  cases stops c <;> simp

theorem sinceLast_sublist (stops : α → Bool) (calls : List α) :
    List.Sublist (sinceLast stops calls) calls := by
  have taken : List.Sublist (calls.reverse.takeWhile fun c => !stops c) calls.reverse :=
    List.takeWhile_sublist _
  simpa only [List.reverse_reverse] using taken.reverse

theorem expected_getD (calls : List (QueueCall Msg Processed)) (sender : String) :
    ((expected calls).msgQueue sender).getD [] =
      (sinceLast QueueCall.emptiesMsgs calls).filterMap (QueueCall.msgFor sender) := by
  simp only [expected]
  split
  · rfl
  · rename_i never
    simp only [List.any_eq_true, not_exists, not_and, Option.not_isSome_iff_eq_none] at never
    exact (List.filterMap_eq_nil_iff.mpr fun c mem =>
      never c ((sinceLast_sublist _ calls).subset mem)).symm

theorem expected_msgQueue_of_other {calls : List (QueueCall Msg Processed)}
    {c : QueueCall Msg Processed} {sender : String} (other : c.msgFor sender = none)
    (keeps : c.emptiesMsgs = false) :
    (expected (calls ++ [c])).msgQueue sender = (expected calls).msgQueue sender := by
  simp only [expected, List.any_append, List.any_cons, List.any_nil, other, Option.isSome_none,
    Bool.or_false, sinceLast_append_singleton, keeps, Bool.false_eq_true, ↓reduceIte,
    List.filterMap_append, List.filterMap_cons, List.filterMap_nil, List.append_nil]

theorem expected_processedMsgs_of_other {calls : List (QueueCall Msg Processed)}
    {c : QueueCall Msg Processed} (other : c.batch = none) (keeps : c.emptiesBatches = false) :
    (expected (calls ++ [c])).processedMsgs = (expected calls).processedMsgs := by
  simp only [expected, sinceLast_append_singleton, keeps, Bool.false_eq_true, ↓reduceIte,
    List.filterMap_append, List.filterMap_cons, other, List.filterMap_nil, List.append_nil]

/-- One call moves the expected queues as the host's code moves its queues: the abstract
model is a refinement square for every call. -/
theorem expected_append_singleton (calls : List (QueueCall Msg Processed))
    (c : QueueCall Msg Processed) : expected (calls ++ [c]) = c.apply (expected calls) := by
  cases c with
  | appendMsgQueue msg s =>
    refine Queues.ext (funext fun sender => ?_) (expected_processedMsgs_of_other rfl rfl)
    by_cases same : s = sender
    · subst same
      simp only [QueueCall.apply, appendMsgQueue, Function.update_same, expected_getD]
      simp only [expected, List.any_append, List.any_cons, List.any_nil, QueueCall.msgFor,
        ↓reduceIte, Option.isSome_some, Bool.or_false, Bool.or_true, sinceLast_append_singleton,
        QueueCall.emptiesMsgs, Bool.false_eq_true, List.filterMap_append, List.filterMap_cons,
        List.filterMap_nil]
    · rw [expected_msgQueue_of_other (c := .appendMsgQueue msg s)
        (by rw [QueueCall.msgFor, if_neg same]) rfl]
      simp only [QueueCall.apply, appendMsgQueue, Function.update_noteq (Ne.symm same)]
  | emptyMsgQueue =>
    refine Queues.ext (funext fun sender => ?_) (expected_processedMsgs_of_other rfl rfl)
    simp only [expected, QueueCall.apply, emptyMsgQueue, sinceLast_append_singleton,
      QueueCall.emptiesMsgs, ↓reduceIte, List.filterMap_nil, List.any_append, List.any_cons,
      List.any_nil, QueueCall.msgFor, Option.isSome_none, Bool.or_false]
    split <;> rfl
  | appendProcessedMsgs msgs =>
    refine Queues.ext (funext fun sender => expected_msgQueue_of_other rfl rfl) ?_
    simp only [expected, QueueCall.apply, appendProcessedMsgs, sinceLast_append_singleton,
      QueueCall.emptiesBatches, Bool.false_eq_true, ↓reduceIte, List.filterMap_append,
      List.filterMap_cons, QueueCall.batch, List.filterMap_nil]
  | emptyProcessedMsgs =>
    refine Queues.ext (funext fun sender => expected_msgQueue_of_other rfl rfl) ?_
    simp only [expected, QueueCall.apply, emptyProcessedMsgs, sinceLast_append_singleton,
      QueueCall.emptiesBatches, ↓reduceIte, List.filterMap_nil]

/-- From the queues `NewBaseHostV1` makes, every run of queue calls leaves the expected
queues: `GetMsgQueue` gives each sender ever sent a message the messages appended for it
since the last `EmptyMsgQueue`, and no key to any other sender; `GetProcessedMsgs` gives the
batches appended since the last `EmptyProcessedMsgs`. -/
theorem queues_after_run (calls : List (QueueCall Msg Processed)) :
    getMsgQueue (runCalls calls initialQueues) = (expected calls).msgQueue ∧
      getProcessedMsgs (runCalls calls initialQueues) = (expected calls).processedMsgs := by
  suffices run : runCalls calls initialQueues = expected calls by rw [run]; exact ⟨rfl, rfl⟩
  induction calls using List.reverseRecOn with
  | nil => rfl
  | append_singleton calls c ih =>
    rw [runCalls_append_singleton, ih, expected_append_singleton]

example : getMsgQueue (runCalls [.appendMsgQueue 1 "a", .appendMsgQueue 2 "b", .emptyMsgQueue,
    .appendMsgQueue 3 "a", .appendProcessedMsgs 7] (initialQueues : Queues Nat Nat)) "b" = some [] := by
  decide

end Spec

end OpinitBots.Host
