import OpinitBots.Bytes

/-! The key-value store behind `types.DB`, as the spec's KV abstraction describes it:
point reads and writes, iteration over a key prefix in key order, and the
seek-previous-inclusive lookup. Entries are kept in key order; the order is the
structure's own invariant. -/
namespace OpinitBots

/-- Strictly increasing keys, in `bytes.Compare` order. -/
def KeySorted {V : Type} (es : List (Bytes × V)) : Prop :=
  es.Pairwise (fun a b => compareBytes a.1 b.1 = .lt)

structure Store (V : Type) where
  entries : List (Bytes × V)
  sorted : KeySorted entries

/-- One element of a `RawBatchSet` batch; a nil value deletes the key. -/
structure RawKV (V : Type) where
  key : Bytes
  value : Option V

namespace Store

variable {V : Type}

def lookup (k : Bytes) : List (Bytes × V) → Option V
  | [] => none
  | e :: es => if e.1 = k then some e.2 else lookup k es

def insertEntry (k : Bytes) (v : V) : List (Bytes × V) → List (Bytes × V)
  | [] => [(k, v)]
  | e :: es =>
    match compareBytes k e.1 with
    | .lt => (k, v) :: e :: es
    | .eq => (k, v) :: es
    | .gt => e :: insertEntry k v es

theorem mem_insertEntry {k : Bytes} {v : V} :
    ∀ {es : List (Bytes × V)} {x}, x ∈ insertEntry k v es → x = (k, v) ∨ x ∈ es
  | [], x, h => by simp_all [insertEntry]
  | e :: es, x, h => by
    unfold insertEntry at h
    split at h
    · simpa using h
    · rcases List.mem_cons.mp h with h | h
      · exact .inl h
      · exact .inr (List.mem_cons_of_mem e h)
    · rcases List.mem_cons.mp h with h | h
      · exact .inr (h ▸ List.mem_cons_self e es)
      · rcases mem_insertEntry h with h | h
        · exact .inl h
        · exact .inr (List.mem_cons_of_mem e h)

theorem insertEntry_sorted (k : Bytes) (v : V) :
    ∀ {es : List (Bytes × V)}, KeySorted es → KeySorted (insertEntry k v es)
  | [], _ => List.pairwise_singleton _ _
  | e :: es, sorted => by
    have tail := List.pairwise_cons.mp sorted
    unfold insertEntry
    split
    · rename_i lt
      exact List.Pairwise.cons (fun x hx => by
        rcases List.mem_cons.mp hx with rfl | hx
        · exact lt
        · exact compareBytes_lt_trans lt (tail.1 x hx)) sorted
    · rename_i eq
      obtain rfl := compareBytes_eq_iff.mp eq
      exact List.Pairwise.cons tail.1 tail.2
    · rename_i gt
      have lt : compareBytes e.1 k = .lt := by rw [← compareBytes_swap, gt]; rfl
      refine List.Pairwise.cons (fun x hx => ?_) (insertEntry_sorted k v tail.2)
      rcases mem_insertEntry hx with rfl | hx
      · exact lt
      · exact tail.1 x hx

def empty : Store V := ⟨[], .nil⟩

def get (s : Store V) (k : Bytes) : Option V := lookup k s.entries

@[simp] theorem get_empty (k : Bytes) : (empty : Store V).get k = none := rfl

def set (s : Store V) (k : Bytes) (v : V) : Store V :=
  ⟨insertEntry k v s.entries, insertEntry_sorted k v s.sorted⟩

def delete (s : Store V) (k : Bytes) : Store V :=
  ⟨s.entries.filter (fun e => e.1 ≠ k), s.sorted.filter _⟩

def applyKV (s : Store V) (kv : RawKV V) : Store V :=
  match kv.value with
  | some v => s.set kv.key v
  | none => s.delete kv.key

def batchSet (s : Store V) (kvs : List (RawKV V)) : Store V := kvs.foldl applyKV s

@[simp] theorem batchSet_nil (s : Store V) : s.batchSet [] = s := rfl

theorem batchSet_single (s : Store V) (k : Bytes) (v : V) :
    s.batchSet [⟨k, some v⟩] = s.set k v := rfl

def prefixed (s : Store V) (p : Bytes) : List (Bytes × V) :=
  s.entries.filter (fun e => p.isPrefixOf e.1)

/-- The last entry in key order satisfying `c`. -/
def lastWhere (c : Bytes × V → Bool) : List (Bytes × V) → Option (Bytes × V)
  | [] => none
  | e :: es => (lastWhere c es).or (if c e then some e else none)

/-- `SeekPrevInclusiveKey`: the greatest key at most `target` that starts with `p`. -/
def seekPrevInclusiveKey (s : Store V) (p target : Bytes) : Option (Bytes × V) :=
  lastWhere (fun e => p.isPrefixOf e.1 && compareBytes e.1 target != .gt) s.entries

theorem lookup_insertEntry (k k' : Bytes) (v : V) :
    ∀ es : List (Bytes × V), lookup k' (insertEntry k v es) = if k = k' then some v else lookup k' es
  | [] => by simp [insertEntry, lookup]
  | e :: es => by
    unfold insertEntry
    split
    · simp [lookup]
    · rename_i eq
      obtain rfl := compareBytes_eq_iff.mp eq
      by_cases h : e.1 = k' <;> simp [lookup, h]
    · rename_i gt
      have ne : e.1 ≠ k := fun h => by simp [h] at gt
      by_cases h : e.1 = k'
      · subst h; simp [lookup, Ne.symm ne]
      · simp only [lookup, h, if_false, lookup_insertEntry k k' v es]

@[simp] theorem get_set (s : Store V) (k k' : Bytes) (v : V) :
    (s.set k v).get k' = if k = k' then some v else s.get k' :=
  lookup_insertEntry k k' v s.entries

theorem lookup_filter (k k' : Bytes) (es : List (Bytes × V)) :
    lookup k' (es.filter (fun e => e.1 ≠ k)) = if k = k' then none else lookup k' es := by
  induction es with
  | nil => simp [lookup]
  | cons e es ih =>
    by_cases h : e.1 = k
    · have drop : (e :: es).filter (fun e => e.1 ≠ k) = es.filter (fun e => e.1 ≠ k) := by
        simp [List.filter_cons, h]
      rw [drop, ih]
      by_cases h' : k = k' <;> simp [lookup, h, h']
    · have keep : (e :: es).filter (fun e => e.1 ≠ k) = e :: es.filter (fun e => e.1 ≠ k) := by
        simp [List.filter_cons, h]
      rw [keep]
      simp only [lookup, ih]
      by_cases h' : e.1 = k'
      · subst h'; simp [Ne.symm h]
      · simp [h']

@[simp] theorem get_delete (s : Store V) (k k' : Bytes) :
    (s.delete k).get k' = if k = k' then none else s.get k' :=
  lookup_filter k k' s.entries

theorem get_batchSet_other {k : Bytes} : ∀ (kvs : List (RawKV V)) (s : Store V),
    (∀ kv ∈ kvs, kv.key ≠ k) → (s.batchSet kvs).get k = s.get k
  | [], _, _ => rfl
  | kv :: kvs, s, other => by
    have step : (s.applyKV kv).get k = s.get k := by
      unfold applyKV
      split <;> simp only [get_set, get_delete, if_neg (other kv (List.mem_cons_self _ _))]
    exact (get_batchSet_other kvs _ fun kv' mem => other kv' (List.mem_cons_of_mem _ mem)).trans step

theorem get_batchSet_congr {k : Bytes} : ∀ (kvs : List (RawKV V)) {s s' : Store V},
    s'.get k = s.get k → (s'.batchSet kvs).get k = (s.batchSet kvs).get k
  | [], _, _, same => same
  | kv :: kvs, s, s', same => by
    have step : (s'.applyKV kv).get k = (s.applyKV kv).get k := by
      unfold applyKV
      split <;> simp only [get_set, get_delete, same]
    exact get_batchSet_congr kvs step

theorem lastWhere_eq_none (c : Bytes × V → Bool) :
    ∀ es : List (Bytes × V), lastWhere c es = none ↔ ∀ e ∈ es, c e = false
  | [] => by simp [lastWhere]
  | e :: es => by
    cases h : c e <;> simp [lastWhere, h, lastWhere_eq_none c es]

theorem lastWhere_greatest (c : Bytes × V → Bool) :
    ∀ {es : List (Bytes × V)} {e}, KeySorted es → lastWhere c es = some e →
      e ∈ es ∧ c e = true ∧ ∀ e' ∈ es, c e' = true → compareBytes e'.1 e.1 ≠ .gt
  | [], _, _, h => by simp [lastWhere] at h
  | e₀ :: es, e, sorted, h => by
    have tail := List.pairwise_cons.mp sorted
    cases hr : lastWhere c es with
    | some r =>
      obtain ⟨mem, sat, great⟩ := lastWhere_greatest c tail.2 hr
      obtain rfl : r = e := by simpa [lastWhere, hr] using h
      refine ⟨List.mem_cons_of_mem _ mem, sat, fun e' he' ce' => ?_⟩
      rcases List.mem_cons.mp he' with rfl | he'
      · simp [tail.1 r mem]
      · exact great e' he' ce'
    | none =>
      have none := (lastWhere_eq_none c es).mp hr
      by_cases ce : c e₀ = true
      · obtain rfl : e₀ = e := by simpa [lastWhere, hr, ce] using h
        refine ⟨List.mem_cons_self _ _, ce, fun e' he' ce' => ?_⟩
        rcases List.mem_cons.mp he' with rfl | he'
        · simp
        · simp [none e' he'] at ce'
      · simp [lastWhere, hr, ce] at h

theorem mem_of_lookup {k : Bytes} {v : V} :
    ∀ {es : List (Bytes × V)}, lookup k es = some v → (k, v) ∈ es
  | [], h => by simp [lookup] at h
  | e :: es, h => by
    unfold lookup at h
    split at h
    · rename_i same
      cases h
      rw [← same]
      exact List.mem_cons_self _ _
    · exact List.mem_cons_of_mem _ (mem_of_lookup h)

theorem lookup_of_mem {k : Bytes} {v : V} :
    ∀ {es : List (Bytes × V)}, KeySorted es → (k, v) ∈ es → lookup k es = some v
  | [], _, mem => by simp at mem
  | e :: es, sorted, mem => by
    have tail := List.pairwise_cons.mp sorted
    rcases List.mem_cons.mp mem with rfl | mem
    · simp [lookup]
    · have ne : e.1 ≠ k := fun same => by simpa [same] using tail.1 _ mem
      simp [lookup, ne, lookup_of_mem tail.2 mem]

theorem seekPrevInclusiveKey_found (s : Store V) {p target k : Bytes} {v : V}
    (seek : s.seekPrevInclusiveKey p target = some (k, v)) :
    s.get k = some v ∧ p.isPrefixOf k ∧ compareBytes k target ≠ .gt := by
  obtain ⟨mem, sat, -⟩ := lastWhere_greatest _ s.sorted seek
  simp only [Bool.and_eq_true, bne_gt_iff] at sat
  exact ⟨lookup_of_mem s.sorted mem, sat⟩

/-- The seek returns the entry under `k` when `k` has the prefix and is at most the
target, and every other such key is at most `k`. -/
theorem seekPrevInclusiveKey_eq_some (s : Store V) {p target k : Bytes} {v : V}
    (found : s.get k = some v) (pk : p.isPrefixOf k) (le : compareBytes k target ≠ .gt)
    (greatest : ∀ k' v', s.get k' = some v' → p.isPrefixOf k' →
      compareBytes k' target ≠ .gt → compareBytes k' k ≠ .gt) :
    s.seekPrevInclusiveKey p target = some (k, v) := by
  cases h : s.seekPrevInclusiveKey p target with
  | none =>
    have := (lastWhere_eq_none _ _).mp h (k, v) (mem_of_lookup found)
    simp only [pk, Bool.true_and] at this
    exact absurd (bne_gt_iff.mpr le) (by rw [this]; decide)
  | some e =>
    obtain ⟨mem, sat, great⟩ := lastWhere_greatest _ s.sorted h
    simp only [Bool.and_eq_true, bne_gt_iff] at sat
    have same : e.1 = k := compareBytes_antisymm
      (greatest e.1 e.2 (lookup_of_mem s.sorted mem) sat.1 sat.2)
      (great (k, v) (mem_of_lookup found) (by simp [pk, le]))
    have value : s.get k = some e.2 := by rw [← same]; exact lookup_of_mem s.sorted mem
    rw [found, Option.some.injEq] at value
    rw [← same, value]

theorem seekPrevInclusiveKey_eq_none (s : Store V) {p target : Bytes}
    (below : ∀ k v, s.get k = some v → p.isPrefixOf k → compareBytes k target = .gt) :
    s.seekPrevInclusiveKey p target = none := by
  refine (lastWhere_eq_none _ _).mpr fun e mem => ?_
  cases h : p.isPrefixOf e.1
  · simp [h]
  · rw [below e.1 e.2 (lookup_of_mem s.sorted mem) h]
    rfl

theorem mem_prefixed {s : Store V} {p k : Bytes} {v : V} :
    (k, v) ∈ s.prefixed p ↔ p.isPrefixOf k ∧ s.get k = some v := by
  rw [prefixed, List.mem_filter]
  exact ⟨fun ⟨mem, pk⟩ => ⟨pk, lookup_of_mem s.sorted mem⟩,
    fun ⟨pk, found⟩ => ⟨mem_of_lookup found, pk⟩⟩

/-! What a prefix iteration sees after a write. -/

theorem prefixed_sorted (s : Store V) (p : Bytes) : KeySorted (s.prefixed p) := s.sorted.filter _

theorem filter_insertEntry_other {P : Bytes → Bool} {k : Bytes} (v : V) (pk : P k = false) :
    ∀ es : List (Bytes × V), (insertEntry k v es).filter (fun e => P e.1) = es.filter (fun e => P e.1)
  | [] => by simp [insertEntry, pk]
  | e :: es => by
    unfold insertEntry
    split
    · simp [List.filter_cons, pk]
    · rename_i eq
      obtain rfl := compareBytes_eq_iff.mp eq
      simp [List.filter_cons, pk]
    · simp only [List.filter_cons, filter_insertEntry_other v pk es]

theorem filter_insertEntry_last {P : Bytes → Bool} {k : Bytes} (v : V) (pk : P k = true) :
    ∀ {es : List (Bytes × V)}, KeySorted es →
      (∀ e ∈ es.filter (fun e => P e.1), compareBytes e.1 k = .lt) →
      (insertEntry k v es).filter (fun e => P e.1) = es.filter (fun e => P e.1) ++ [(k, v)]
  | [], _, _ => by simp [insertEntry, pk]
  | e :: es, sorted, greater => by
    have tail := List.pairwise_cons.mp sorted
    have below : ∀ x ∈ e :: es, P x.1 = true → compareBytes x.1 k = .lt :=
      fun x mem px => greater x (List.mem_filter.mpr ⟨mem, px⟩)
    unfold insertEntry
    split
    · rename_i lt
      have none : (e :: es).filter (fun e => P e.1) = [] := List.filter_eq_nil_iff.mpr fun x mem px => by
        have above : compareBytes k x.1 ≠ .gt := by
          rcases List.mem_cons.mp mem with rfl | mem
          · rw [lt]; decide
          · rw [compareBytes_lt_trans lt (tail.1 x mem)]; decide
        exact above (by rw [← compareBytes_swap, below x mem px]; rfl)
      rw [List.filter_cons_of_pos (p := fun e : Bytes × V => P e.1) pk, none]
      rfl
    · rename_i eq
      obtain rfl := compareBytes_eq_iff.mp eq
      have := below e (List.mem_cons_self e es) pk
      rw [compareBytes_self] at this
      cases this
    · simp only [List.filter_cons]
      split
      · rw [filter_insertEntry_last v pk tail.2 fun x mem => below x
          (List.mem_cons_of_mem e (List.mem_filter.mp mem).1) (List.mem_filter.mp mem).2]
        rfl
      · exact filter_insertEntry_last v pk tail.2 fun x mem => below x
          (List.mem_cons_of_mem e (List.mem_filter.mp mem).1) (List.mem_filter.mp mem).2

theorem prefixed_set_other (s : Store V) {p k : Bytes} (v : V) (pk : p.isPrefixOf k = false) :
    (s.set k v).prefixed p = s.prefixed p :=
  filter_insertEntry_other v pk s.entries

theorem prefixed_set_last (s : Store V) {p k : Bytes} (v : V) (pk : p.isPrefixOf k = true)
    (greater : ∀ e ∈ s.prefixed p, compareBytes e.1 k = .lt) :
    (s.set k v).prefixed p = s.prefixed p ++ [(k, v)] :=
  filter_insertEntry_last v pk s.sorted greater

theorem prefixed_delete (s : Store V) (p k : Bytes) :
    (s.delete k).prefixed p = (s.prefixed p).filter fun e => e.1 ≠ k := by
  simp only [prefixed, delete, List.filter_filter, Bool.and_comm]

theorem prefixed_batchSet_other (p : Bytes) : ∀ (kvs : List (RawKV V)) (s : Store V),
    (∀ kv ∈ kvs, p.isPrefixOf kv.key = false) → (s.batchSet kvs).prefixed p = s.prefixed p
  | [], _, _ => rfl
  | kv :: kvs, s, off => by
    have first : (s.applyKV kv).prefixed p = s.prefixed p := by
      unfold applyKV
      split
      · exact prefixed_set_other s _ (off kv (List.mem_cons_self kv kvs))
      · rw [prefixed_delete, List.filter_eq_self.mpr fun e mem => ?_]
        have pe := (List.mem_filter.mp mem).2
        have pk := off kv (List.mem_cons_self kv kvs)
        simp only [decide_eq_true_eq]
        intro same
        rw [same, pk] at pe
        cases pe
    exact (prefixed_batchSet_other p kvs _ fun kv' mem => off kv' (List.mem_cons_of_mem kv mem)).trans first

theorem prefixed_batchSet_append (p : Bytes) : ∀ (kvs : List (Bytes × V)) (s : Store V),
    KeySorted (s.prefixed p ++ kvs) → (∀ kv ∈ kvs, p.isPrefixOf kv.1 = true) →
      (s.batchSet (kvs.map fun kv => ⟨kv.1, some kv.2⟩)).prefixed p = s.prefixed p ++ kvs
  | [], s, _, _ => by simp [batchSet]
  | kv :: kvs, s, sorted, pk => by
    have last : (s.set kv.1 kv.2).prefixed p = s.prefixed p ++ [kv] :=
      prefixed_set_last s kv.2 (pk kv (List.mem_cons_self kv kvs)) fun e mem =>
        (List.pairwise_append.mp sorted).2.2 e mem kv (List.mem_cons_self kv kvs)
    have rest := prefixed_batchSet_append p kvs (s.set kv.1 kv.2)
      (by rw [last, List.append_assoc]; exact sorted) fun kv' mem => pk kv' (List.mem_cons_of_mem kv mem)
    rw [last, List.append_assoc] at rest
    exact rest

theorem batchSet_append (s : Store V) (kvs kvs' : List (RawKV V)) :
    s.batchSet (kvs ++ kvs') = (s.batchSet kvs).batchSet kvs' :=
  List.foldl_append _ _ _ _

theorem prefixed_batchSet_deletes (p : Bytes) : ∀ (ks : List Bytes) (s : Store V),
    (s.batchSet (ks.map fun k => ⟨k, none⟩)).prefixed p = (s.prefixed p).filter fun e => e.1 ∉ ks
  | [], s => by simp [batchSet]
  | k :: ks, s => by
    show ((s.delete k).batchSet _).prefixed p = _
    rw [prefixed_batchSet_deletes p ks, prefixed_delete, List.filter_filter]
    congr 1
    funext e
    simp [List.mem_cons, not_or, Bool.and_comm]

end Store

/-- The store a component is given, with the outcome of each coming call: a `true` at
the head of `faults` makes the next call fail with an I/O error. -/
structure DB (V : Type) where
  store : Store V
  faults : List Bool

namespace DB

variable {V : Type}

def failing (db : DB V) : Bool := db.faults.headD false

def tick (db : DB V) : DB V := { db with faults := db.faults.tail }

@[simp] theorem tick_store (db : DB V) : db.tick.store = db.store := rfl

@[simp] theorem failing_nil (s : Store V) : (DB.mk s []).failing = false := rfl

@[simp] theorem tick_nil (s : Store V) : (DB.mk s []).tick = ⟨s, []⟩ := rfl

theorem answers_succ (db : DB V) (k : Nat) :
    true ∉ db.faults.take (k + 1) ↔ db.failing = false ∧ true ∉ db.tick.faults.take k := by
  obtain ⟨store, _ | ⟨f, fs⟩⟩ := db
  · simp [failing, tick]
  · cases f <;> simp [failing, tick]

end DB

end OpinitBots
